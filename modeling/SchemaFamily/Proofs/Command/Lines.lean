import SchemaFamily.Proofs.Command.Directory

/-
  Lines. A family that cannot be compiled is told in a line, by itself as in its directory
  (`lines_of_failing`). The failure is the same, and so is the line unless a file cannot be read:
  by itself the family is then told with the cause a second time.
-/

namespace SchemaFamily

/-- The failure is that of a file that cannot be read. -/
def Failure.IsUnreadable (f : Failure) : Prop := ∃ p fault, f = .unreadable p fault

/-- The cause is told a second time exactly where a file cannot be read. -/
theorem Failure.fullMessage_eq_message_iff {f : Failure} :
    f.fullMessage = f.message ↔ ¬ f.IsUnreadable := by
  cases f with
  | unreadable p fault =>
    refine ⟨fun h => ?_, fun h => absurd ⟨p, fault, rfl⟩ h⟩
    have hlength := congrArg String.length h
    simp only [fullMessage, toString, String.length_append] at hlength
    have hcolon : ": ".length = 2 := by decide
    omega
  | malformed | unresolved | missingIndexKey | importCycle | dangling =>
    refine ⟨fun _ h => ?_, fun _ => rfl⟩
    obtain ⟨p, fault, heq⟩ := h
    cases heq

/-- A line holds its message as it is. -/
theorem errorLine_inj {first second : String} :
    s!"ERROR: {first}\n" = s!"ERROR: {second}\n" ↔ first = second := by
  refine ⟨fun h => ?_, fun h => by rw [h]⟩
  have hchars := congrArg String.toList h
  simp only [toString, String.toList_append] at hchars
  exact String.ext (List.append_cancel_left (List.append_cancel_right hchars))

/-- The lines of several failures. -/
def errorLines (fs : List Failure) : String :=
  String.join (fs.map fun f => s!"ERROR: {f.message}\n")

theorem errorLines_append (before after : List Failure) :
    errorLines (before ++ after) = errorLines before ++ errorLines after := by
  rw [errorLines, List.map_append, String.join_append]
  rfl

theorem errorLines_cons (f : Failure) (after : List Failure) :
    errorLines (f :: after) = s!"ERROR: {f.message}\n" ++ errorLines after := by
  rw [errorLines, List.map_cons, String.join_cons]
  rfl

theorem failed_append (before after : List (Path × Except Failure Graph)) :
    failed (before ++ after) = failed before ++ failed after := by
  rw [← failures_eq_failed, ← failures_eq_failed, ← failures_eq_failed]
  exact List.filterMap_append

section

variable {disk : Disk} {settings : Settings} {p : Path} {f : Failure}

/-- By itself a family that fails is told with its full message. -/
theorem compileFile_of_failing (hfails : compileAlone disk settings p = .error f)
    (format : Format) : compileFile disk settings p format = .failure f := by
  rw [compileAlone] at hfails
  rw [compileFile, hfails]

/-- Where the failures of the families before and behind it are told, a family that fails is told
    in between. -/
theorem failed_eachAlone (hfails : compileAlone disk settings p = .error f)
    (earlier later : List Path) :
    failed (eachAlone disk settings (earlier ++ p :: later)) =
      failed (eachAlone disk settings earlier) ++ f :: failed (eachAlone disk settings later) := by
  have hself : failed (eachAlone disk settings [p]) = [f] := by
    simp [eachAlone, failed, hfails]
  rw [eachAlone, List.map_append, failed_append]
  refine congrArg _ ?_
  rw [← List.singleton_append, List.map_append, failed_append]
  exact congrArg (· ++ _) hself

/-- A family of a directory that cannot be compiled fails by itself as it does in the directory,
    and not for a handle that numbers nothing. By itself it is told in a line with the full message.
    In the directory, unless no family is compiled since too many are to be compiled at a time, it
    is told in a line with the message, behind those of the families that fail before it in the
    order of their names and in front of those that fail after it. The two lines are the same
    exactly if it is not for a file that cannot be read; if it is, the line of the family by itself
    has the cause once more. -/
theorem lines_of_failing {input : Path} {files : List String} {name : String}
    (hlook : disk.look input = .directory files) (hname : name ∈ files)
    (hfamily : settings.isFamily name = true)
    (hfile : disk.isDirectory (input.join ⟨name⟩) = false)
    (hfails : compileAlone disk settings (input.join ⟨name⟩) = .error f) (alone format : Format) :
    ¬ f.OutOfRange ∧
    (Command.compile (input.join ⟨name⟩) alone).run disk settings = .failure f ∧
    (Outcome.failure f).errors = s!"ERROR: {f.fullMessage}\n" ∧
    (∃ earlier later : List String,
      (earlier ++ name :: later).Perm (files.filter settings.isFamily) ∧
      (earlier ++ name :: later).Pairwise (· ≤ ·) ∧
      let told names := failed (eachAlone disk settings (names.map fun n => input.join ⟨n⟩))
      let all := earlier ++ name :: later
      if settings.jobs.any (2 ^ 61 - 1 < ·) then
        ((Command.compile input format).run disk settings).exit = 101
      else
        ((Command.compile input format).run disk settings).exit = 1 ∧
        ((Command.compile input format).run disk settings).errors =
          errorLines (told earlier) ++ s!"ERROR: {f.message}\n" ++ errorLines (told later) ++
            s!"ERROR: {(told all).length} of {all.length} families failed to compile\n") ∧
    (s!"ERROR: {f.fullMessage}\n" = s!"ERROR: {f.message}\n" ↔ ¬ f.IsUnreadable) ∧
    ∀ q fault, f = .unreadable q fault →
      f.message = s!"Cannot read {q.text}: {fault.message}" ∧
      f.fullMessage = s!"Cannot read {q.text}: {fault.message}: {fault.message}" := by
  obtain ⟨names, paths, hperm, hsorted, rfl, hdiscover⟩ := discover_of_look settings hlook
  have hmem : name ∈ names := hperm.mem_iff.2 (List.mem_filter.2 ⟨hname, hfamily⟩)
  obtain ⟨earlier, later, rfl⟩ := List.append_of_mem hmem
  rw [run_of_discover hlook hdiscover]
  refine ⟨not_outOfRange_of_compileAlone hfails, ?_, rfl, ⟨earlier, later, hperm, hsorted, ?_⟩,
    errorLine_inj.trans Failure.fullMessage_eq_message_iff, ?_⟩
  · rw [Command.run, hfile, if_neg Bool.false_ne_true, compileFile_of_failing hfails]
  · intro told all
    split
    · rfl
    · have htells := tells_eachAlone disk settings (all.map fun n => input.join ⟨n⟩) format
      have htold : told all = told earlier ++ f :: told later := by
        show failed (eachAlone disk settings ((earlier ++ name :: later).map _)) = _
        rw [List.map_append, List.map_cons]
        exact failed_eachAlone hfails _ _
      have hne : told all ≠ [] := by
        rw [htold]
        exact List.append_ne_nil_of_right_ne_nil _ (List.cons_ne_nil _ _)
      refine ⟨htells.exit.resolve_left fun h => hne (failed_eq_nil.2 (htells.exit_eq_zero.1 h)),
        htells.errors.trans ?_⟩
      have hcount : (eachAlone disk settings (all.map fun n => input.join ⟨n⟩)).length =
          all.length := by
        rw [eachAlone, List.length_map, List.length_map]
      rw [if_neg hne, hcount]
      have hlines : errorLines (told all) =
          errorLines (told earlier) ++ s!"ERROR: {f.message}\n" ++ errorLines (told later) := by
        rw [htold, errorLines_append, errorLines_cons]
        exact String.append_assoc.symm
      rw [← hlines]
      rfl
  · rintro q fault rfl
    exact ⟨rfl, rfl⟩

end

/-- A directory of a family that is no markup, one that imports a file that is missing, and one
    that can be compiled. -/
def failingFamilies : Disk := .ofSights
  [(⟨"d"⟩, .directory ["a.xml", "b.xml", "c.xml"]),
    (⟨"d/a.xml"⟩, .file (some "<METASCHEMA>")),
    (⟨"d/b.xml"⟩, .file (some "<METASCHEMA><import href=\"e\"/></METASCHEMA>")),
    (⟨"d/c.xml"⟩, .file (some "<METASCHEMA/>")),
    (⟨"d/e"⟩, .nothing .missing)]

theorem look_failingFamilies :
    failingFamilies.look ⟨"d"⟩ = .directory ["a.xml", "b.xml", "c.xml"] := by
  decide +kernel

theorem discover_failingFamilies :
    discover failingFamilies {} ⟨"d"⟩ = .ok [⟨"d/a.xml"⟩, ⟨"d/b.xml"⟩, ⟨"d/c.xml"⟩] := by
  have hsorted : (["a.xml", "b.xml", "c.xml"] : List String).mergeSort (· ≤ ·) =
      ["a.xml", "b.xml", "c.xml"] :=
    List.mergeSort_of_pairwise (by decide +kernel)
  have hfamilies : (["a.xml", "b.xml", "c.xml"] : List String).filter (Settings.isFamily {}) =
      ["a.xml", "b.xml", "c.xml"] := by
    decide +kernel
  rw [discover, Disk.list, look_failingFamilies]
  dsimp only
  rw [hfamilies, hsorted]
  decide +kernel

/-- The family that is no markup is told in the same line by itself and in its directory. -/
theorem lines_failingFamilies :
    let line := "ERROR: d/a.xml:1: malformed <METASCHEMA>: element <METASCHEMA> is never closed\n"
    ((Command.compile ⟨"d/a.xml"⟩ .json).run failingFamilies {}).errors = line ∧
      ∃ before after, ((Command.compile ⟨"d"⟩ .summary).run failingFamilies {}).errors =
        before ++ line ++ after := by
  intro line
  obtain ⟨f, hf⟩ : ∃ f : Failure, f = .malformed ⟨"d/a.xml"⟩
      { element := "METASCHEMA", line := 1, fault := .xml (.neverClosed "METASCHEMA") } := ⟨_, rfl⟩
  have hpath : Path.join ⟨"d"⟩ ⟨"a.xml"⟩ = ⟨"d/a.xml"⟩ := by decide +kernel
  have hfails : compileAlone failingFamilies {} (Path.join ⟨"d"⟩ ⟨"a.xml"⟩) = .error f := by
    rw [hf]
    decide +kernel
  have hline : s!"ERROR: {f.message}\n" = line := by
    rw [hf]
    decide +kernel
  have hreadable : ¬ f.IsUnreadable := by
    rintro ⟨_, _, h⟩
    cases hf.symm.trans h
  obtain ⟨_, halone, htold, ⟨_, _, _, _, hdirectory⟩, hsame, _⟩ :=
    lines_of_failing look_failingFamilies (by decide) (by decide +kernel) (by decide +kernel) hfails
      .json .summary
  rw [hpath] at halone
  rw [Option.any_none, if_neg Bool.false_ne_true, hline, String.append_assoc] at hdirectory
  exact ⟨by rw [halone, htold, hsame.2 hreadable, hline], _, _, hdirectory.2⟩

/-- The family whose import is missing is told with the cause twice by itself, and once in its
    directory. -/
theorem lines_missingImport :
    ((Command.compile ⟨"d/b.xml"⟩ .summary).run failingFamilies {}).errors =
      "ERROR: Cannot read d/e: No such file or directory (os error 2): " ++
        "No such file or directory (os error 2)\n" ∧
    ((Command.compile ⟨"d"⟩ .summary).run failingFamilies {}).errors =
      "ERROR: d/a.xml:1: malformed <METASCHEMA>: element <METASCHEMA> is never closed\n" ++
        "ERROR: Cannot read d/e: No such file or directory (os error 2)\n" ++
        "ERROR: 2 of 3 families failed to compile\n" := by
  refine ⟨by decide +kernel, ?_⟩
  rw [run_of_discover look_failingFamilies discover_failingFamilies]
  decide +kernel

end SchemaFamily
