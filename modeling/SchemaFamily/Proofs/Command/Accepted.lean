import SchemaFamily.Proofs.Command.Directory
import SchemaFamily.Proofs.Family.Permits

/-
  Accepted settings. Settings that are read from a file have at least one job, so a directory is
  compiled without a crash, whatever its families hold and however its workers take their turns
  (`ends_of_accepted`). The one exception is a number of jobs for which there cannot be permits:
  settings that ask for it are accepted too.
-/

namespace SchemaFamily

section

variable {disk : Disk} {settings : Settings}

/-- Settings that are read have been checked. -/
theorem check_of_ofFile {path : Path} (h : Settings.ofFile disk path = .ok settings) :
    settings.multiplexerSuffix ≠ "" ∧ settings.jobs ≠ some 0 := by
  have hcheck : ∃ s : Settings, s.check = .ok settings := by
    unfold Settings.ofFile at h
    split at h
    · cases h
    · split at h <;> split at h
      · exact ⟨_, h⟩
      · cases h
      · exact ⟨_, h⟩
      · cases h
  obtain ⟨s, hs⟩ := hcheck
  obtain ⟨rfl, hchecked⟩ := Settings.check_eq_ok_iff.1 hs
  exact hchecked

theorem run_of_ofFile {path : Path} (h : Settings.ofFile disk path = .ok settings)
    (verbosity : Nat) (command : Command) :
    Request.run disk { settings := some path, verbosity, command } = command.run disk settings := by
  rw [Request.run, Request.settingsIn]
  dsimp only
  rw [h]

/-- As many permits are made as there are jobs, if their number is given and not zero. -/
theorem permits_of_jobs {n : Nat} (hjobs : settings.jobs = some n) (hn : n ≠ 0) (families : Nat) :
    settings.permits families = n := by
  rw [Settings.permits, hjobs, Option.getD_some]
  omega

/-- However the workers of a pool take their turns there is no crash, and the permits that are free
    and those that are held add up; there are always turns that bring every result into its slot,
    and then the slots hold what the outcome tells. -/
structure Pool.Serves (pool : Pool) (permits : Nat) (paths : List Path) (format : Format)
    (outcome : Outcome) : Prop where
  run : ∀ turns, ∃ pool', pool.run turns = some pool'
  counted : ∀ {turns pool'}, pool.run turns = some pool' → pool'.free + pool'.working = permits
  places : ∀ {turns pool'}, pool.run turns = some pool' →
    pool'.stages.length = paths.length ∧ pool'.slots.length = paths.length
  ends : ∀ turns, ∃ more pool', pool.run (turns ++ more) = some pool' ∧ pool'.IsDone
  tells : ∀ {turns pool'}, pool.run turns = some pool' → pool'.IsDone →
    ∃ results, pool'.slots = results.map some ∧ .ofFamilies (paths.zip results) format = outcome

theorem exists_serving {paths : List Path} (hfew : settings.permits paths.length ≤ 2 ^ 61 - 1)
    (format : Format) : ∃ pool, Pool.start disk settings paths = some pool ∧
      pool.Serves (settings.permits paths.length) paths format
        (.ofFamilies (eachAlone disk settings paths) format) := by
  obtain ⟨pool, hstart, hsound⟩ := Pool.sound_start disk hfew
  have hone : 1 ≤ settings.permits paths.length := Nat.le_max_right ..
  -- every pool that is come to is sound
  have hkept : ∀ {turns pool'}, pool.run turns = some pool' → pool'.Sound disk settings.entities
      (paths.map (compileAlone disk settings)) (settings.permits paths.length) := by
    intro turns pool' hrun
    obtain ⟨other, hother, hsound'⟩ := hsound.run turns
    cases hrun.symm.trans hother
    exact hsound'
  refine ⟨pool, hstart, fun turns => (hsound.run turns).imp fun _ => And.left,
    fun hrun => (hkept hrun).counted, fun hrun => ?_, fun turns => ?_, fun hrun hdone => ?_⟩
  · have h := hkept hrun
    exact ⟨h.stages.trans (List.length_map _), h.slots.trans (List.length_map _)⟩
  · obtain ⟨pool', hrun, hsound'⟩ := hsound.run turns
    obtain ⟨more, last, hmore, hdone⟩ := hsound'.exists_collected hone
    refine ⟨more, last, ?_, hdone⟩
    rw [Pool.run_append, hrun]
    exact hmore
  · exact ⟨_, (hkept hrun).slots_eq hdone, by rw [zip_compileAlone]⟩

/-- Under settings that are accepted, a directory that can be listed is compiled with at least one
    permit, as many as there are jobs if their number is given. The exit code is 101, which is that
    of a crash, exactly if that number is one for which there cannot be permits. Else it is 0 or 1,
    and what is told are the results of the families. No family fails for a handle that numbers
    nothing. Where there can be permits, the workers of the families are at the start, and from
    there they serve what is told; that there are too many families for that without a number of
    jobs never happens, since no list of paths is that long. -/
theorem ends_of_accepted {path : Path} (hread : Settings.ofFile disk path = .ok settings)
    {input : Path} {files : List String} (hlook : disk.look input = .directory files)
    (verbosity : Nat) (format : Format) :
    ∃ paths outcome, discover disk settings input = .ok paths ∧
      Request.run disk { settings := some path, verbosity, command := .compile input format } =
        outcome ∧
      (∀ n, settings.jobs = some n → 1 ≤ n ∧ settings.permits paths.length = n) ∧
      (settings.jobs = none → settings.permits paths.length = max paths.length 1) ∧
      (outcome.exit = 101 ↔ ∃ n, settings.jobs = some n ∧ 2 ^ 61 - 1 < n) ∧
      (outcome.exit ≠ 101 → (outcome.exit = 0 ∨ outcome.exit = 1) ∧
        outcome.Tells (eachAlone disk settings paths) format) ∧
      (∀ p ∈ paths, ∀ f, compileAlone disk settings p = .error f → ¬ f.OutOfRange) ∧
      (Pool.start disk settings paths = none ↔ 2 ^ 61 - 1 < settings.permits paths.length) ∧
      (settings.permits paths.length ≤ 2 ^ 61 - 1 →
        ∃ pool, Pool.start disk settings paths = some pool ∧
          pool.Serves (settings.permits paths.length) paths format outcome) := by
  obtain ⟨names, paths, _, _, _, hdiscover⟩ := discover_of_look settings hlook
  have hpos : ∀ n, settings.jobs = some n → n ≠ 0 := by
    rintro n hn rfl
    exact (check_of_ofFile hread).2 hn
  have hpermits : ∀ n, settings.jobs = some n → settings.permits paths.length = n :=
    fun n hn => permits_of_jobs hn (hpos n hn) _
  have hmany : settings.jobs.any (2 ^ 61 - 1 < ·) = true ↔ ∃ n, settings.jobs = some n ∧
      2 ^ 61 - 1 < n := by
    rw [Option.any_eq_true]
    simp only [decide_eq_true_eq]
  have htells := tells_eachAlone disk settings paths format
  refine ⟨paths, _, hdiscover, run_of_ofFile hread verbosity _,
    fun n hn => ⟨Nat.pos_of_ne_zero (hpos n hn), hpermits n hn⟩, fun hn => ?_, ?_⟩
  · rw [Settings.permits, hn]
    rfl
  rw [run_of_discover hlook hdiscover]
  refine ⟨?_, fun hexit => ?_, fun p _ f hf => not_outOfRange_of_compileAlone hf, ?_,
    fun hfew => ?_⟩
  · rw [← hmany]
    split
    · next h => exact ⟨fun _ => h, fun _ => rfl⟩
    · next h =>
      refine ⟨fun hexit => ?_, fun h' => absurd h' h⟩
      rcases htells.exit with h0 | h1
      · cases h0.symm.trans hexit
      · cases h1.symm.trans hexit
  · split at hexit
    · exact absurd rfl hexit
    · next h =>
      rw [if_neg h]
      exact ⟨htells.exit, htells⟩
  · rw [Pool.start]
    simp only [ite_eq_left_iff, reduceCtorEq, imp_false, not_not]
  · have hnot : ¬ settings.jobs.any (2 ^ 61 - 1 < ·) = true := by
      rw [hmany]
      rintro ⟨n, hn, hlt⟩
      rw [hpermits n hn] at hfew
      exact absurd hlt (Nat.not_lt.2 hfew)
    rw [if_neg hnot]
    exact exists_serving hfew format

end

/-- A directory of two families, settings with one job, and settings with one job more than there
    can be permits for. -/
def givenJobs : Disk := .ofSights
  [(⟨"d"⟩, .directory ["a.xml", "b.xml"]),
    (⟨"d/a.xml"⟩, .file (some "<METASCHEMA/>")),
    (⟨"d/b.xml"⟩, .file (some "<METASCHEMA>")),
    (⟨"one.json"⟩, .file (some "\x7b\"jobs\": 1\x7d")),
    (⟨"many.json"⟩, .file (some "\x7b\"jobs\": 2305843009213693952\x7d"))]

theorem look_givenJobs : givenJobs.look ⟨"d"⟩ = .directory ["a.xml", "b.xml"] := by
  decide +kernel

/-- With one job one worker waits for the other, and both results come into their slots. -/
theorem ends_oneJob :
    ∃ paths outcome pool, discover givenJobs { jobs := some 1 } ⟨"d"⟩ = .ok paths ∧
      Request.run givenJobs
        { settings := some ⟨"one.json"⟩, verbosity := 0, command := .compile ⟨"d"⟩ .summary } =
        outcome ∧ (outcome.exit = 0 ∨ outcome.exit = 1) ∧
      Pool.start givenJobs { jobs := some 1 } paths = some pool ∧
      pool.Serves 1 paths .summary outcome := by
  have hread : Settings.ofFile givenJobs ⟨"one.json"⟩ = .ok { jobs := some 1 } := by decide +kernel
  obtain ⟨paths, outcome, hdiscover, hrun, hjobs, _, hcrash, htells, _, _, hserves⟩ :=
    ends_of_accepted hread look_givenJobs 0 .summary
  have hpermits := (hjobs 1 rfl).2
  have hfew : 1 ≤ 2 ^ 61 - 1 := by decide
  rw [hpermits] at hserves
  obtain ⟨pool, hstart, hpool⟩ := hserves hfew
  have hnot : outcome.exit ≠ 101 := by
    intro hexit
    obtain ⟨n, hn, hlt⟩ := hcrash.1 hexit
    cases hn
    exact absurd hfew (Nat.not_le.2 hlt)
  exact ⟨paths, outcome, pool, hdiscover, hrun, (htells hnot).1, hstart, hpool⟩

/-- Settings that ask for more jobs than there can be permits for are accepted, and the run with
    them crashes. -/
theorem crash_manyJobs :
    Settings.ofFile givenJobs ⟨"many.json"⟩ = .ok { jobs := some 2305843009213693952 } ∧
      ∃ outcome, Request.run givenJobs
        { settings := some ⟨"many.json"⟩, verbosity := 0, command := .compile ⟨"d"⟩ .summary } =
          outcome ∧ outcome.exit = 101 := by
  have hread : Settings.ofFile givenJobs ⟨"many.json"⟩ =
      .ok { jobs := some 2305843009213693952 } := by
    decide +kernel
  obtain ⟨_, paths, _, _, _, hdiscover⟩ :=
    discover_of_look { jobs := some 2305843009213693952 } look_givenJobs
  refine ⟨hread, _, rfl, ?_⟩
  rw [run_of_ofFile hread, run_of_discover look_givenJobs hdiscover, if_pos (by decide)]

end SchemaFamily
