import SchemaFamily.Command.Run
import SchemaFamily.Proofs.Family.Schedules

/-
  Permits. A worker waits for one of the permits before it takes its first step, gives it back
  with its last one, and then its result is put into the slot of its number. No more permits can
  be made than 2 ^ 61 - 1, and a result for which there is no slot is a crash. Whatever happens
  next, there is no crash and no permit is lost (`Pool.Sound.run`), whoever has its result in a
  slot has its own (`Pool.Sound.slots_eq`), and there are always turns that fill all slots as long
  as there is a permit at all (`Pool.Sound.exists_collected`).
-/

namespace SchemaFamily

/-- The permits for the families of a directory: as many as the settings ask for, else one for each
    family, and at least one. -/
def Settings.permits (settings : Settings) (families : Nat) : Nat :=
  max (settings.jobs.getD families) 1

/-- How far a worker is: it waits for a permit, it holds one, it has given it back and has its
    result, or its result is in its slot. -/
inductive Stage where
  | waiting
  | working
  | ended (result : Except Failure Graph)
  | collected

/-- The worker holds a permit. -/
def Stage.isWorking : Stage → Bool
  | working => true
  | waiting | ended _ | collected => false

/-- The result of the worker is not in its slot yet. -/
def Stage.isOpen : Stage → Bool
  | collected => false
  | waiting | working | ended _ => true

/-- A result that the worker of a number has given is its own, and so is one in its slot. -/
def Stage.Fits (results : List (Except Failure Graph))
    (slots : List (Option (Except Failure Graph))) (i : Nat) : Stage → Prop
  | waiting | working => True
  | ended result => results[i]? = some result
  | collected => slots[i]? = results[i]?.map some

/-- Workers that share permits, how far they are, and the slots for their results. -/
structure Pool where
  free : Nat
  force : Workforce
  stages : List Stage
  slots : List (Option (Except Failure Graph))

/-- What happens next: the worker of a number is given a permit, takes a step, gives the permit
    back, or has its result put into its slot. -/
inductive Turn where
  | enter (i : Nat)
  | work (i : Nat)
  | finish (i : Nat)
  | collect (i : Nat)

namespace Pool

/-- How many workers hold a permit. -/
def working (pool : Pool) : Nat := pool.stages.countP Stage.isWorking

/-- How many workers do not have their result in a slot. -/
def remaining (pool : Pool) : Nat := pool.stages.countP Stage.isOpen

/-- Every result is in its slot. -/
def IsDone (pool : Pool) : Prop := ∀ stage ∈ pool.stages, stage = .collected

/-- A worker for each path, none of them admitted, and an empty slot for each. There is a crash if
    more permits are asked for than can be made. -/
def start (disk : Disk) (settings : Settings) (paths : List Path) : Option Pool :=
  if 2 ^ 61 - 1 < settings.permits paths.length then none
  else some
    { free := settings.permits paths.length
      force := .start disk settings paths
      stages := List.replicate paths.length .waiting
      slots := List.replicate paths.length none }

/-- The next turn. Nothing happens if it is not that of the worker; there is a crash if there is no
    slot for its result. -/
def step (pool : Pool) : Turn → Option Pool
  | .enter i =>
    match pool.stages[i]?, pool.free with
    | some .waiting, free + 1 => some { pool with free, stages := pool.stages.set i .working }
    | _, _ => some pool
  | .work i =>
    match pool.stages[i]? with
    | some .working => some { pool with force := pool.force.step i }
    | _ => some pool
  | .finish i =>
    match pool.stages[i]?, pool.force.workers[i]? with
    | some .working, some (.done result) =>
      some { pool with free := pool.free + 1, stages := pool.stages.set i (.ended result) }
    | _, _ => some pool
  | .collect i =>
    match pool.stages[i]? with
    | some (.ended result) =>
      if i < pool.slots.length then
        some { pool with
          stages := pool.stages.set i .collected, slots := pool.slots.set i (some result) }
      else none
    | _ => some pool

/-- One turn after the other, until there is a crash. -/
def run (pool : Pool) (turns : List Turn) : Option Pool := turns.foldlM step pool

variable {disk : Disk} {entities : Xml.EntityMap} {results : List (Except Failure Graph)}
  {permits : Nat} {pool pool' : Pool}

/-! ## What every turn keeps -/

/-- All permits are accounted for, and every worker has its own result and a slot for it. -/
structure Sound (disk : Disk) (entities : Xml.EntityMap) (results : List (Except Failure Graph))
    (permits : Nat) (pool : Pool) : Prop where
  settled : pool.force.Settled disk entities results
  counted : pool.free + pool.working = permits
  stages : pool.stages.length = results.length
  slots : pool.slots.length = results.length
  fits : ∀ {i : Nat} {stage : Stage}, pool.stages[i]? = some stage →
    stage.Fits results pool.slots i

theorem countP_set_of_getElem? {α : Type} {p : α → Bool} {as : List α} {i : Nat} {a b : α}
    (h : as[i]? = some a) :
    (as.set i b).countP p + (if p a then 1 else 0) = as.countP p + if p b then 1 else 0 := by
  obtain ⟨hlt, rfl⟩ := List.getElem?_eq_some_iff.1 h
  have hle := List.boole_getElem_le_countP (p := p) hlt
  rw [List.countP_set hlt]
  omega

/-- A worker goes on to another stage, where the permits still add up. -/
theorem Sound.set (h : pool.Sound disk entities results permits) {i : Nat} {stage next : Stage}
    (hstage : pool.stages[i]? = some stage) (hnext : next.Fits results pool.slots i) {free : Nat}
    (hfree : free + (if next.isWorking then 1 else 0) =
      pool.free + if stage.isWorking then 1 else 0) :
    ({ pool with free, stages := pool.stages.set i next } : Pool).Sound disk entities results
      permits := by
  refine ⟨h.settled, ?_, (List.length_set ..).trans h.stages, h.slots, fun {j other} hother => ?_⟩
  · have hcount := countP_set_of_getElem? (p := Stage.isWorking) (b := next) hstage
    have hcounted := h.counted
    show free + (pool.stages.set i next).countP Stage.isWorking = permits
    rw [working] at hcounted
    omega
  · dsimp only at hother
    rw [List.getElem?_set] at hother
    split at hother
    · next hij =>
      subst hij
      split at hother
      · cases hother
        exact hnext
      · cases hother
    · exact h.fits hother

/-- There is a slot for the result of a worker that has given its permit back. -/
theorem Sound.slot_lt (h : pool.Sound disk entities results permits) {i : Nat}
    {result : Except Failure Graph} (hstage : pool.stages[i]? = some (.ended result)) :
    i < pool.slots.length := by
  rw [h.slots, ← h.stages]
  exact (List.getElem?_eq_some_iff.1 hstage).1

/-- The result of a worker is put into its slot. -/
theorem Sound.collect (h : pool.Sound disk entities results permits) {i : Nat}
    {result : Except Failure Graph} (hstage : pool.stages[i]? = some (.ended result)) :
    ({ pool with
      stages := pool.stages.set i .collected, slots := pool.slots.set i (some result) } :
        Pool).Sound disk entities results permits := by
  have hresult : results[i]? = some result := h.fits hstage
  -- the slots of the others are as they were
  have hkept : ({ pool with slots := pool.slots.set i (some result) } : Pool).Sound disk entities
      results permits := by
    refine ⟨h.settled, h.counted, h.stages, (List.length_set ..).trans h.slots,
      fun {j other} hother => ?_⟩
    have hfits := h.fits hother
    cases other with
    | waiting | working => trivial
    | ended r => exact hfits
    | collected =>
      have hji : i ≠ j := by
        rintro rfl
        cases hstage.symm.trans hother
      exact (List.getElem?_set_ne hji).trans hfits
  refine hkept.set hstage ?_ rfl
  show (pool.slots.set i (some result))[i]? = results[i]?.map some
  rw [List.getElem?_set_self (h.slot_lt hstage), hresult]
  rfl

/-- No turn is a crash, and the permits still add up behind it. -/
theorem Sound.step (h : pool.Sound disk entities results permits) (turn : Turn) :
    ∃ pool', pool.step turn = some pool' ∧ pool'.Sound disk entities results permits := by
  cases turn with
  | enter i =>
    rw [Pool.step]
    split
    · next free hstage hfree =>
      have hnext : Stage.working.Fits results pool.slots i := trivial
      refine ⟨_, rfl, h.set hstage hnext ?_⟩
      rw [hfree]
      rfl
    · exact ⟨_, rfl, h⟩
  | work i =>
    rw [Pool.step]
    split
    · exact ⟨_, rfl, h.settled.step i, h.counted, h.stages, h.slots, h.fits⟩
    · exact ⟨_, rfl, h⟩
  | finish i =>
    rw [Pool.step]
    split
    · next result hstage hworker =>
      have hlt : i < results.length := by
        rw [← h.stages]
        exact (List.getElem?_eq_some_iff.1 hstage).1
      have hresult : result = results[i] := h.settled.worker hworker (List.getElem?_eq_getElem hlt)
      refine ⟨_, rfl, h.set hstage ?_ rfl⟩
      rw [hresult]
      exact List.getElem?_eq_getElem hlt
    · exact ⟨_, rfl, h⟩
  | collect i =>
    rw [Pool.step]
    split
    · next result hstage =>
      rw [if_pos (h.slot_lt hstage)]
      exact ⟨_, rfl, h.collect hstage⟩
    · exact ⟨_, rfl, h⟩

theorem run_append (pool : Pool) (turns more : List Turn) :
    pool.run (turns ++ more) = (pool.run turns).bind fun pool => pool.run more := List.foldlM_append

/-- However the workers take their turns, there is no crash and no permit is lost. -/
theorem Sound.run (h : pool.Sound disk entities results permits) (turns : List Turn) :
    ∃ pool', pool.run turns = some pool' ∧ pool'.Sound disk entities results permits := by
  induction turns generalizing pool with
  | nil => exact ⟨pool, rfl, h⟩
  | cons turn later ih =>
    obtain ⟨next, hnext, hkept⟩ := h.step turn
    obtain ⟨pool', hrun, hsound⟩ := ih hkept
    refine ⟨pool', ?_, hsound⟩
    rw [Pool.run, List.foldlM_cons, hnext]
    exact hrun

/-- Unless too many permits are asked for, the workers are at the start. -/
theorem sound_start (disk : Disk) {settings : Settings} {paths : List Path}
    (hfew : settings.permits paths.length ≤ 2 ^ 61 - 1) :
    ∃ pool, start disk settings paths = some pool ∧ pool.Sound disk settings.entities
      (paths.map (compileAlone disk settings)) (settings.permits paths.length) := by
  refine ⟨_, if_neg (Nat.not_lt.2 hfew), Workforce.settled_start disk settings paths, ?_, ?_, ?_,
    fun {i stage} hstage => ?_⟩
  · simp [working, Stage.isWorking]
  · simp
  · simp
  · obtain rfl := List.eq_of_mem_replicate (List.mem_of_getElem? hstage)
    trivial

/-- When every result is in its slot, the slots hold the results. -/
theorem Sound.slots_eq (h : pool.Sound disk entities results permits) (hdone : pool.IsDone) :
    pool.slots = results.map some := by
  refine List.ext_getElem? fun i => ?_
  rw [List.getElem?_map]
  cases hstage : pool.stages[i]? with
  | none =>
    have hlength : results.length ≤ i := by
      rw [← h.stages]
      exact List.getElem?_eq_none_iff.1 hstage
    rw [List.getElem?_eq_none_iff.2 (h.slots ▸ hlength), List.getElem?_eq_none_iff.2 hlength]
    rfl
  | some stage =>
    have hfits := h.fits hstage
    rw [hdone stage (List.mem_of_getElem? hstage)] at hfits
    exact hfits

/-! ## Turns that fill the slots -/

/-- There are turns from the one pool to the other that collect the result of a worker and leave
    the others as they are. -/
def Collects (pool pool' : Pool) (i : Nat) : Prop :=
  (∃ turns, pool.run turns = some pool') ∧ pool'.stages = pool.stages.set i .collected

/-- A worker may go through other stages before its result is collected. -/
theorem Collects.after {next : Pool} {i : Nat} {stage : Stage} {turns : List Turn}
    (h : next.Collects pool' i) (hturns : pool.run turns = some next)
    (hstages : next.stages = pool.stages.set i stage) : pool.Collects pool' i := by
  obtain ⟨⟨more, hmore⟩, hcollected⟩ := h
  refine ⟨⟨turns ++ more, ?_⟩, ?_⟩
  · rw [run_append, hturns]
    exact hmore
  · rw [hcollected, hstages, List.set_set]

/-- A worker that has given its permit back has its result collected. -/
theorem Sound.exists_collects_ended (h : pool.Sound disk entities results permits) {i : Nat}
    {result : Except Failure Graph} (hstage : pool.stages[i]? = some (.ended result)) :
    ∃ pool', pool.Collects pool' i := by
  refine ⟨{ pool with
    stages := pool.stages.set i .collected, slots := pool.slots.set i (some result) },
    ⟨[.collect i], ?_⟩, rfl⟩
  rw [Pool.run, List.foldlM_cons, Pool.step, hstage]
  dsimp only
  rw [if_pos (h.slot_lt hstage)]
  rfl

theorem run_work {i n : Nat} (hstage : pool.stages[i]? = some .working) :
    pool.run (List.replicate n (.work i)) =
      some { pool with force := pool.force.run (List.replicate n i) } := by
  induction n generalizing pool with
  | zero => rfl
  | succ n ih =>
    rw [List.replicate_succ, run, List.foldlM_cons, step, hstage]
    exact ih hstage

/-- A worker that holds a permit is brought to its end, and its result is collected. -/
theorem Sound.exists_collects_working (h : pool.Sound disk entities results permits) {i : Nat}
    (hstage : pool.stages[i]? = some .working) : ∃ pool', pool.Collects pool' i := by
  have hlt : i < pool.force.workers.length := by
    rw [h.settled.length, ← h.stages]
    exact (List.getElem?_eq_some_iff.1 hstage).1
  obtain ⟨n, result, hrun⟩ := Workforce.exists_run_worker (List.getElem?_eq_getElem hlt)
  have hended : (pool.force.run (List.replicate n i)).workers[i]? = some (.done result) := by
    rw [hrun, if_pos rfl]
  let ended : Pool :=
    { pool with
      force := pool.force.run (List.replicate n i)
      free := pool.free + 1
      stages := pool.stages.set i (.ended result) }
  have hturns : pool.run (List.replicate n (.work i) ++ [.finish i]) = some ended := by
    rw [run_append, run_work hstage, Option.bind_some, Pool.run, List.foldlM_cons, Pool.step]
    dsimp only
    rw [hstage, hended]
    rfl
  obtain ⟨pool', hpool', hkept⟩ := h.run (List.replicate n (.work i) ++ [.finish i])
  cases hturns.symm.trans hpool'
  have hfinished : ended.stages[i]? = some (.ended result) :=
    List.getElem?_set_self (List.getElem?_eq_some_iff.1 hstage).1
  obtain ⟨last, hlast⟩ := hkept.exists_collects_ended hfinished
  exact ⟨last, hlast.after hturns rfl⟩

/-- A worker that waits is admitted when a permit is free, and then it is collected. -/
theorem Sound.exists_collects_waiting (h : pool.Sound disk entities results permits) {i : Nat}
    (hstage : pool.stages[i]? = some .waiting) {free : Nat} (hfree : pool.free = free + 1) :
    ∃ pool', pool.Collects pool' i := by
  let entered : Pool := { pool with free, stages := pool.stages.set i .working }
  have hturn : pool.run [.enter i] = some entered := by
    rw [Pool.run, List.foldlM_cons, Pool.step, hstage, hfree]
    rfl
  obtain ⟨pool', hpool', hkept⟩ := h.run [.enter i]
  cases hturn.symm.trans hpool'
  have hworking : entered.stages[i]? = some .working :=
    List.getElem?_set_self (List.getElem?_eq_some_iff.1 hstage).1
  obtain ⟨last, hlast⟩ := hkept.exists_collects_working hworking
  exact ⟨last, hlast.after hturn rfl⟩

/-- As long as some result is not in its slot, some worker can be collected: one that is on its
    way, or else all permits are free and one that waits is admitted. -/
theorem Sound.exists_collects (h : pool.Sound disk entities results permits)
    (hpermits : 1 ≤ permits) {i : Nat} {stage : Stage} (hstage : pool.stages[i]? = some stage)
    (hrest : stage ≠ .collected) : ∃ j other pool', pool.stages[j]? = some other ∧
      other ≠ .collected ∧ pool.Collects pool' j := by
  cases stage with
  | collected => exact absurd rfl hrest
  | ended result =>
    obtain ⟨pool', hpool'⟩ := h.exists_collects_ended hstage
    exact ⟨i, _, pool', hstage, hrest, hpool'⟩
  | working =>
    obtain ⟨pool', hpool'⟩ := h.exists_collects_working hstage
    exact ⟨i, _, pool', hstage, hrest, hpool'⟩
  | waiting =>
    cases hfree : pool.free with
    | succ free =>
      obtain ⟨pool', hpool'⟩ := h.exists_collects_waiting hstage hfree
      exact ⟨i, _, pool', hstage, hrest, hpool'⟩
    | zero =>
      have hcounted := h.counted
      have hpos : 0 < pool.stages.countP Stage.isWorking := by
        rw [working] at hcounted
        omega
      obtain ⟨other, hmem, hworking⟩ := List.countP_pos_iff.1 hpos
      obtain ⟨j, hj⟩ := List.getElem?_of_mem hmem
      obtain rfl : other = .working := by cases other <;> first | rfl | cases hworking
      obtain ⟨pool', hpool'⟩ := h.exists_collects_working hj
      exact ⟨j, _, pool', hj, nofun, hpool'⟩

/-- As long as there is a permit at all, there are turns behind which every result is in its
    slot. -/
theorem Sound.exists_collected (h : pool.Sound disk entities results permits)
    (hpermits : 1 ≤ permits) : ∃ turns pool', pool.run turns = some pool' ∧ pool'.IsDone := by
  -- by induction on the number of results that are not in their slots
  obtain ⟨n, hn⟩ : ∃ n, pool.remaining = n := ⟨_, rfl⟩
  induction n using Nat.strong_induction_on generalizing pool with
  | _ n ih =>
    by_cases hdone : pool.IsDone
    · exact ⟨[], pool, rfl, hdone⟩
    · obtain ⟨stage, hmem, hrest⟩ : ∃ stage ∈ pool.stages, stage ≠ .collected := by
        rw [IsDone] at hdone
        push Not at hdone
        exact hdone
      obtain ⟨i, hi⟩ := List.getElem?_of_mem hmem
      obtain ⟨j, other, next, hj, hother, ⟨turns, hturns⟩, hstages⟩ :=
        h.exists_collects hpermits hi hrest
      obtain ⟨next', hnext', hkept⟩ := h.run turns
      cases hturns.symm.trans hnext'
      have hfewer : next.remaining < n := by
        have hcount := countP_set_of_getElem? (p := Stage.isOpen) (b := .collected) hj
        have hopen : other.isOpen = true := by
          cases other <;> first | rfl | exact absurd rfl hother
        rw [if_pos hopen, if_neg (by exact Bool.false_ne_true)] at hcount
        rw [remaining] at hn
        rw [remaining, hstages]
        omega
      obtain ⟨more, pool', hmore, hpool'⟩ := ih _ hfewer hkept rfl
      refine ⟨turns ++ more, pool', ?_, hpool'⟩
      rw [run_append, hturns]
      exact hmore

end Pool

end SchemaFamily
