import SchemaFamily.Command.Run
import SchemaFamily.Proofs.Family.Keyed
import SchemaFamily.Proofs.Family.Schedules
import SchemaFamily.Proofs.Report.Access

/-
  Directories. What is written and told of the families of a directory is what each of them
  compiles to with a cache of its own (`outcome_of_directory`), in the order of their names,
  whether they are compiled one after the other or by workers that take turns in any order. The
  graphs that are written are sound, so that writing them never fails.
-/

namespace SchemaFamily

/-- Each path with what it compiles to with a cache of its own. -/
def eachAlone (disk : Disk) (settings : Settings) (paths : List Path) :
    List (Path × Except Failure Graph) :=
  paths.map fun p => (p, compileAlone disk settings p)

/-- The families among results that were compiled, in their order. -/
def written : List (Path × Except Failure Graph) → List (Path × Graph)
  | [] => []
  | (p, .ok g) :: later => (p, g) :: written later
  | (_, .error _) :: later => written later

/-- The failures among results, in their order. -/
def failed : List (Path × Except Failure Graph) → List Failure
  | [] => []
  | (_, .ok _) :: later => failed later
  | (_, .error failure) :: later => failure :: failed later

/-- The outcome tells of results what they are. All graphs are written together in their order, and
    each failure is told in a line, in their order too; a last line counts the failures if there
    are any. The exit code is 0 when there are none, else 1. -/
structure Outcome.Tells (results : List (Path × Except Failure Graph)) (format : Format)
    (o : Outcome) : Prop where
  output : ∃ text, renderAll (written results) format = .ok text ∧ o.output = text ++ "\n"
  errors : o.errors = String.join ((failed results).map fun f => s!"ERROR: {f.message}\n") ++
    if failed results = [] then ""
    else s!"ERROR: {(failed results).length} of {results.length} families failed to compile\n"
  exit : o.exit = 0 ∨ o.exit = 1
  exit_eq_zero : o.exit = 0 ↔ ∀ x ∈ results, ∃ g, x.2 = .ok g

/-! ## Several results -/

theorem Outcome.errorLine_failureCount (failed all : Nat) : errorLine (failureCount failed all) =
    s!"ERROR: {failed} of {all} families failed to compile\n" := by
  simp only [errorLine, failureCount, toString]
  refine String.ext ?_
  simp

section

variable {results : List (Path × Except Failure Graph)}

theorem compiled_eq_written : compiled results = written results := by
  induction results with
  | nil => rfl
  | cons x later ih =>
    rcases x with ⟨p, failure | g⟩
    · exact ih
    · exact congrArg ((p, g) :: ·) ih

theorem failures_eq_failed : failures results = failed results := by
  induction results with
  | nil => rfl
  | cons x later ih =>
    rcases x with ⟨p, failure | g⟩
    · exact congrArg (failure :: ·) ih
    · exact ih

theorem mem_written {x : Path × Graph} : x ∈ written results ↔ (x.1, .ok x.2) ∈ results := by
  rw [← compiled_eq_written, compiled, List.mem_filterMap]
  constructor
  · rintro ⟨⟨p, failure | g⟩, hmem, hx⟩
    · cases hx
    · cases hx
      exact hmem
  · exact fun h => ⟨_, h, rfl⟩

theorem failed_eq_nil : failed results = [] ↔ ∀ x ∈ results, ∃ g, x.2 = .ok g := by
  rw [← failures_eq_failed, failures, List.filterMap_eq_nil_iff]
  refine forall₂_congr fun x _ => ?_
  rcases x with ⟨p, failure | g⟩ <;> simp

/-- Sound graphs can be written, and what is told is what they and the failures are. -/
theorem tells_ofFamilies (h : ∀ x ∈ results, ∀ g, x.2 = .ok g → g.Sound) (format : Format) :
    (Outcome.ofFamilies results format).Tells results format := by
  obtain ⟨text, htext⟩ := exists_renderAll (fun x (hx : x ∈ written results) =>
    h _ (mem_written.1 hx) _ rfl) format
  have hempty : (failed results).isEmpty = decide (failed results = []) := by
    cases failed results <;> rfl
  rw [Outcome.ofFamilies, compiled_eq_written, failures_eq_failed]
  simp only [htext, hempty, decide_eq_true_eq]
  by_cases hall : failed results = []
  · simp only [if_pos hall]
    refine ⟨⟨text, htext, rfl⟩, ?_, .inl rfl, ⟨fun _ => failed_eq_nil.1 hall, fun _ => rfl⟩⟩
    rw [hall]
    rfl
  · simp only [if_neg hall]
    refine ⟨⟨text, htext, rfl⟩, ?_, .inr rfl, ⟨fun h => ?_, fun h => ?_⟩⟩
    · rw [if_neg hall, Outcome.errorLine_failureCount]
      rfl
    · cases h
    · exact absurd (failed_eq_nil.2 h) hall

end

/-! ## The families of a directory -/

section

variable {disk : Disk} {settings : Settings} {paths : List Path}

theorem sound_of_compileAlone {p : Path} {g : Graph} (h : compileAlone disk settings p = .ok g) :
    g.Sound := by
  have hrun : (compileIn disk settings p p.directory).run.run {} =
      (.ok g, ((compile disk settings p).run.run {}).2) := Prod.ext h rfl
  exact sound_of_compile Cache.readFromTexts_empty hrun

theorem not_outOfRange_of_compileAlone {p : Path} {f : Failure}
    (h : compileAlone disk settings p = .error f) : ¬ f.OutOfRange := by
  have hrun : (compileIn disk settings p p.directory).run.run {} =
      (.error f, ((compile disk settings p).run.run {}).2) := Prod.ext h rfl
  exact not_outOfRange_of_compile Cache.readFromTexts_empty hrun

theorem tells_eachAlone (disk : Disk) (settings : Settings) (paths : List Path) (format : Format) :
    (Outcome.ofFamilies (eachAlone disk settings paths) format).Tells
      (eachAlone disk settings paths) format := by
  refine tells_ofFamilies (fun x hx g hg => ?_) format
  obtain ⟨p, _, rfl⟩ := List.mem_map.1 hx
  exact sound_of_compileAlone hg

/-- What the families before a family leave in the cache does not show in its result. -/
theorem compileAll_eq_eachAlone {c : Cache} (hc : c.Faithful disk settings.entities) :
    (compileAll disk settings paths c).1 = eachAlone disk settings paths := by
  induction paths generalizing c with
  | nil => rfl
  | cons p later ih =>
    have hfirst : ((compile disk settings p).run.run c).1 = compileAlone disk settings p :=
      compileIn_of_faithful hc p p.directory
    have hkept : Cache.Faithful disk settings.entities
        ((compile disk settings p).run.run c).2 := (gives_compileIn p p.directory c hc).2
    show (p, ((compile disk settings p).run.run c).1) ::
      (compileAll disk settings later ((compile disk settings p).run.run c).2).1 = _
    rw [hfirst, ih hkept]
    rfl

theorem zip_compileAlone :
    paths.zip (paths.map (compileAlone disk settings)) = eachAlone disk settings paths := by
  induction paths with
  | nil => rfl
  | cons p later ih => exact congrArg ((p, compileAlone disk settings p) :: ·) ih

/-- A family that fails is not among those that are written. -/
theorem written_eachAlone_filter {p : Path} {failure : Failure}
    (h : compileAlone disk settings p = .error failure) :
    written (eachAlone disk settings (paths.filter (· ≠ p))) =
      written (eachAlone disk settings paths) := by
  rw [← compiled_eq_written, ← compiled_eq_written, compiled, compiled, eachAlone, eachAlone,
    List.filterMap_map, List.filterMap_map, List.filterMap_filter]
  refine List.filterMap_congr fun q _ => ?_
  by_cases hq : q = p
  · subst hq
    simp [h, Except.toOption]
  · simp [hq]

/-- Leaving out a family that fails changes nothing of what is written. -/
theorem output_filter {p : Path} {failure : Failure}
    (h : compileAlone disk settings p = .error failure) (format : Format) :
    (Outcome.ofFamilies (eachAlone disk settings (paths.filter (· ≠ p))) format).output =
      (Outcome.ofFamilies (eachAlone disk settings paths) format).output := by
  obtain ⟨all, hall, hwritten⟩ := (tells_eachAlone disk settings paths format).output
  obtain ⟨others, hothers, hwritten'⟩ :=
    (tells_eachAlone disk settings (paths.filter (· ≠ p)) format).output
  rw [written_eachAlone_filter h, hall] at hothers
  cases hothers
  rw [hwritten', hwritten]

/-- The families of a directory are in the order of their names. -/
theorem discover_of_look (settings : Settings) {input : Path} {files : List String}
    (hlook : disk.look input = .directory files) :
    ∃ (names : List String) (paths : List Path), names.Perm (files.filter settings.isFamily) ∧
      names.Pairwise (· ≤ ·) ∧ paths = names.map (fun name => input.join ⟨name⟩) ∧
      discover disk settings input = .ok paths := by
  refine ⟨(files.filter settings.isFamily).mergeSort (· ≤ ·), _, List.mergeSort_perm _ _,
    pairwise_mergeSort_of id _, rfl, ?_⟩
  rw [discover, Disk.list, hlook]

/-- The families of a directory are told as what each of them compiles to with a cache of its own,
    unless more of them are to be compiled at a time than can be. -/
theorem run_of_discover {input : Path} {files : List String}
    (hlook : disk.look input = .directory files) (hdiscover : discover disk settings input =
      .ok paths) (format : Format) : (Command.compile input format).run disk settings =
      if settings.jobs.any (2 ^ 61 - 1 < ·) then { exit := 101 }
      else .ofFamilies (eachAlone disk settings paths) format := by
  rw [Command.run, Disk.isDirectory, hlook, if_pos rfl, compileDirectory, hdiscover]
  dsimp only
  rw [compileAll_eq_eachAlone (Cache.faithful_empty _ _)]
  rfl

/-- The families of a directory are told as what each of them compiles to with a cache of its own,
    in the order of their names. The same is told when workers compile them at the same time, in
    whatever order they take their steps with the cache they share, and there is always an order
    that brings the workers to their ends from where they are. A family that fails may be left out
    without a change of what is written of the others. -/
theorem outcome_of_directory (disk : Disk) (settings : Settings) (input : Path) (format : Format)
    {files : List String} (hlook : disk.look input = .directory files)
    (hjobs : ∀ n, settings.jobs = some n → n ≤ 2 ^ 61 - 1) :
    ∃ (names : List String) (paths : List Path) (outcome : Outcome),
      names.Perm (files.filter settings.isFamily) ∧ names.Pairwise (· ≤ ·) ∧
      paths = names.map (fun name => input.join ⟨name⟩) ∧
      (Command.compile input format).run disk settings = outcome ∧
      outcome.Tells (eachAlone disk settings paths) format ∧
      (∀ (schedule : List Nat) (results : List (Except Failure Graph)),
        ((Workforce.start disk settings paths).run schedule).slots = results.map some →
        Outcome.ofFamilies (paths.zip results) format = outcome) ∧
      (∀ schedule : List Nat, ∃ (more : List Nat) (results : List (Except Failure Graph)),
        ((Workforce.start disk settings paths).run (schedule ++ more)).slots =
          results.map some) ∧
      ∀ p failure, compileAlone disk settings p = .error failure →
        (Outcome.ofFamilies (compileAll disk settings (paths.filter (· ≠ p)) {}).1 format).output =
          outcome.output := by
  obtain ⟨names, paths, hperm, hsorted, hpaths, hdiscover⟩ :=
    discover_of_look settings hlook
  refine ⟨names, paths, .ofFamilies (eachAlone disk settings paths) format, hperm, hsorted, hpaths,
    ?_, tells_eachAlone disk settings paths format, fun schedule results hslots => ?_,
    fun schedule => ?_, fun p failure hfails => ?_⟩
  · have hfew : settings.jobs.any (2 ^ 61 - 1 < ·) = false := by
      cases hj : settings.jobs with
      | none => rfl
      | some n => exact decide_eq_false (Nat.not_lt.2 (hjobs n hj))
    rw [run_of_discover hlook hdiscover, hfew, if_neg Bool.false_ne_true]
  · have hsettled := (Workforce.settled_start disk settings paths).run schedule
    rw [hsettled.eq_of_slots hslots, zip_compileAlone]
  · obtain ⟨more, hended⟩ := Workforce.exists_ended disk settings paths schedule
    exact ⟨more, _, hended⟩
  · rw [compileAll_eq_eachAlone (Cache.faithful_empty _ _)]
    exact output_filter hfails format

end

/-- A directory of two families that import the same file, which is no family itself; one of them
    also imports a file that is missing. -/
def sharedImport : Disk := .ofSights
  [(⟨"d"⟩, .directory ["b.xml", "c", "a.xml"]),
    (⟨"d/a.xml"⟩, .file (some "<METASCHEMA><import href=\"c\"/></METASCHEMA>")),
    (⟨"d/b.xml"⟩, .file (some
      "<METASCHEMA><import href=\"c\"/><import href=\"e\"/></METASCHEMA>")),
    (⟨"d/c"⟩, .file (some "<METASCHEMA/>")),
    (⟨"d/e"⟩, .nothing .missing)]

/-- Both workers look for the file that they share before one of them keeps it. -/
theorem outcome_sharedImport :
    let outcome : Outcome :=
      { exit := 1
        output := "a: 2 documents, 0 declarations, 0 multiplexers\n  a (d/a.xml)\n" ++
          "    imports: c\n  c (d/c)\n\n"
        errors := "ERROR: Cannot read d/e: No such file or directory (os error 2)\n" ++
          "ERROR: 1 of 2 families failed to compile\n" }
    let paths : List Path := [⟨"d/a.xml"⟩, ⟨"d/b.xml"⟩]
    let ended := (Workforce.start sharedImport {} paths).run [0, 1, 0, 1, 0, 1, 0, 1, 1]
    (Command.compile ⟨"d"⟩ .summary).run sharedImport {} = outcome ∧
      outcome.Tells (eachAlone sharedImport {} paths) .summary ∧
      ∃ results, ended.slots = results.map some ∧
        Outcome.ofFamilies (paths.zip results) .summary = outcome := by
  intro outcome paths ended
  have hlook : sharedImport.look ⟨"d"⟩ = .directory ["b.xml", "c", "a.xml"] := by decide +kernel
  obtain ⟨names, paths', outcome', hperm, hsorted, hpaths, hrun, htells, hslots, _⟩ :=
    outcome_of_directory sharedImport {} ⟨"d"⟩ .summary hlook (fun n hn => by cases hn)
  have hfamilies : (["b.xml", "c", "a.xml"] : List String).filter (Settings.isFamily {}) =
      ["b.xml", "a.xml"] := by
    decide +kernel
  have hnames : names = ["a.xml", "b.xml"] := by
    rw [hfamilies] at hperm
    exact (hperm.trans (.swap _ _ _)).eq_of_pairwise (fun a b _ _ => le_antisymm) hsorted
      (by decide +kernel)
  have hsame : paths' = paths := by
    rw [hpaths, hnames]
    decide +kernel
  rw [hsame] at htells hslots
  have hended : ended.slots = (ended.slots.filterMap id).map some := by decide +kernel
  have hwritten : Outcome.ofFamilies (paths.zip (ended.slots.filterMap id)) .summary = outcome := by
    decide +kernel
  have houtcome : outcome' = outcome := (hslots _ _ hended).symm.trans hwritten
  rw [houtcome] at hrun htells
  exact ⟨hrun, htells, _, hended, hwritten⟩

end SchemaFamily
