import SchemaFamily.Proofs.Family.Caching

/-
  Families compiled at the same time. A worker uses the cache it shares in two kinds of steps only:
  it looks a path up, or it keeps a draft under a path and is given the one that was kept first
  (`Sharing`). Between two steps of one worker the others may take any number of theirs, in the
  order that a schedule says (`Workforce.run`). Run to its end without a break, a worker does what
  `compile` does (`run_compileSharing`). Under every schedule the cache holds only drafts of the
  files themselves and every worker keeps to one result, the one it has alone
  (`Settled.run`), and it can always be brought to its end (`exists_finishing`).

  A hit is counted in the step that finds the draft; no worker ever reads the count.
-/

namespace SchemaFamily

/-- A computation with a shared cache, by its next step: it has ended, it looks a path up, or it
    keeps a draft under a path and goes on with the one that is there then. -/
inductive Sharing (α : Type) where
  | done (result : Except Failure α)
  | look (p : Path) (next : Option Draft → Sharing α)
  | keep (p : Path) (draft : Draft) (next : Draft → Sharing α)

namespace Sharing

variable {α β : Type}

/-- The result of a computation that has ended. -/
def result? : Sharing α → Option (Except Failure α)
  | done result => some result
  | look _ _ | keep _ _ _ => none

/-- One computation after the other, unless the first fails. -/
def andThen (f : α → Sharing β) : Sharing α → Sharing β
  | done (.ok a) => f a
  | done (.error failure) => done (.error failure)
  | look p next => look p fun found => (next found).andThen f
  | keep p draft next => keep p draft fun kept => (next kept).andThen f

/-- A computation on each item of a list in order. -/
def each (f : α → Sharing β) : List α → Sharing (List β)
  | [] => done (.ok [])
  | a :: later => (f a).andThen fun b => (each f later).andThen fun more => done (.ok (b :: more))

/-- The next step of a computation. -/
def step (c : Cache) : Sharing α → Sharing α × Cache
  | done result => (done result, c)
  | look p next =>
    match c.get? p with
    | some draft => (next (some draft), { c with hits := c.hits + 1 })
    | none => (next none, c)
  | keep p draft next => (next (((c.insert p draft).get? p).getD draft), c.insert p draft)

/-- All steps of a computation without a break. -/
def run : Sharing α → Cache → Except Failure α × Cache
  | done result, c => (result, c)
  | look p next, c =>
    match c.get? p with
    | some draft => (next (some draft)).run { c with hits := c.hits + 1 }
    | none => (next none).run c
  | keep p draft next, c =>
    (next (((c.insert p draft).get? p).getD draft)).run (c.insert p draft)

theorem run_andThen (f : α → Sharing β) (x : Sharing α) (c : Cache) :
    (x.andThen f).run c =
      match x.run c with
      | (.ok a, c) => (f a).run c
      | (.error failure, c) => (.error failure, c) := by
  induction x generalizing c with
  | done result => cases result <;> rfl
  | look p next ih =>
    rw [andThen, run, run]
    cases c.get? p with
    | some draft => exact ih (some draft) _
    | none => exact ih none _
  | keep p draft next ih => exact ih _ _

/-- The computation does what `y` does when it is run without a break. -/
def Runs (x : Sharing α) (y : Loading α) : Prop := ∀ c, x.run c = y.run.run c

theorem runs_andThen {x : Sharing α} {y : Loading α} {f : α → Sharing β} {f' : α → Loading β}
    (hx : x.Runs y) (hf : ∀ a, (f a).Runs (f' a)) : (x.andThen f).Runs (y >>= f') := by
  intro c
  rw [run_andThen, Loading.run_bind, hx c]
  rcases y.run.run c with ⟨failure | a, c'⟩
  · rfl
  · exact hf a c'

theorem runs_each {f : α → Sharing β} {f' : α → Loading β} (hf : ∀ a, (f a).Runs (f' a))
    (as : List α) : (each f as).Runs (Loading.each f' as) := by
  induction as with
  | nil => exact fun c => rfl
  | cons a later ih =>
    exact runs_andThen (hf a) fun b => runs_andThen ih fun more c => rfl

end Sharing

/-! ## Loading and compiling -/

/-- What a path compiles to with a cache of its own. -/
def compileAlone (disk : Disk) (settings : Settings) (p : Path) : Except Failure Graph :=
  ((compile disk settings p).run.run {}).1

section

variable (disk : Disk)

/-- Loading a draft step by step: a path that is not in the cache is read from its file. -/
def loadSharing (entities : Xml.EntityMap) (p : Path) : Sharing Draft :=
  .look p fun
    | some draft => .done (.ok draft)
    | none =>
      match readDraft disk entities p with
      | .error failure => .done (.error failure)
      | .ok draft => .keep p draft fun kept => .done (.ok kept)

/-- The search for the tree of a path step by step. -/
def resolveSharing (entities : Xml.EntityMap) (base : Path) :
    (steps : Nat) → (way : List Path) → Path → Sharing ImportTree
  | 0, way, p => .done (.error (.importCycle (way ++ [p.normalize])))
  | steps + 1, way, p =>
    if way.contains p.normalize then .done (.error (.importCycle (way ++ [p.normalize])))
    else
      (loadSharing disk entities p.normalize).andThen fun draft =>
        (Sharing.each
          (fun i => resolveSharing entities base steps (way ++ [p.normalize])
            (base.join ⟨i.href⟩)) draft.imports).andThen fun imports =>
          .done (.ok (.node draft imports))

/-- Compiling the family of a path step by step. -/
def compileSharing (settings : Settings) (p : Path) : Sharing Graph :=
  (resolveSharing disk settings.entities p.directory (steps disk {}) [] p).andThen fun tree =>
    .done (finishTree settings tree)

end

section

variable {disk : Disk} {entities : Xml.EntityMap}

theorem runs_loadSharing (p : Path) :
    (loadSharing disk entities p).Runs (loadDraft disk entities p) := by
  intro c
  rw [loadSharing, Sharing.run]
  cases hget : c.get? p with
  | some draft =>
    rw [run_loadDraft_of_hit hget]
    rfl
  | none =>
    dsimp only
    cases hread : readDraft disk entities p with
    | error failure =>
      rw [run_loadDraft_of_error hget hread]
      rfl
    | ok draft =>
      have hself := Cache.get?_insert_self (show c.contains p = false by
        rw [Cache.contains, hget]; rfl) draft
      rw [run_loadDraft_of_ok hget hread]
      show Sharing.run (.done (.ok (((c.insert p draft).get? p).getD draft))) _ = _
      rw [hself]
      rfl

theorem runs_resolveSharing (base : Path) (steps : Nat) (way : List Path) (p : Path) :
    (resolveSharing disk entities base steps way p).Runs
      (resolveFrom disk entities base steps way p) := by
  induction steps generalizing way p with
  | zero => exact fun c => rfl
  | succ steps ih =>
    rw [resolveSharing, resolveFrom]
    split
    · exact fun c => rfl
    · refine Sharing.runs_andThen (runs_loadSharing _) fun draft => ?_
      refine Sharing.runs_andThen (Sharing.runs_each (fun i => ih _ _) _) fun imports => ?_
      exact fun c => rfl

/-- Run without a break from an empty cache, the steps do what compiling does. -/
theorem run_compileSharing (settings : Settings) (p : Path) :
    (compileSharing disk settings p).run {} = (compile disk settings p).run.run {} := by
  rw [compileSharing, Sharing.run_andThen, runs_resolveSharing _ _ _ _ {}, compile, compileIn,
    Loading.run_bind, resolve, Loading.run_bind, Loading.run_get]
  dsimp only
  rcases (resolveFrom disk settings.entities p.directory (steps disk {}) [] p).run.run {} with
    ⟨failure | tree, c⟩
  · rfl
  · dsimp only
    rw [finishTree]
    rcases (finishFamily settings.multiplexerSuffix).apply (Graph.ofTree tree) with
      ⟨failure | n, g⟩ <;> rfl

/-! ## Results that are settled -/

/-- Whatever drafts of the files themselves the computation is given, it ends with `r`. -/
def Sharing.Settled {α : Type} (disk : Disk) (entities : Xml.EntityMap) (r : Except Failure α) :
    Sharing α → Prop
  | .done result => result = r
  | .look p next => .ofComponents p.components = p ∧ (next none).Settled disk entities r ∧
      ∀ draft, readDraft disk entities p = .ok draft → (next (some draft)).Settled disk entities r
  | .keep p draft next => .ofComponents p.components = p ∧
      readDraft disk entities p = .ok draft ∧ (next draft).Settled disk entities r

variable {α β : Type}

theorem settled_andThen {x : Sharing α} {y : Except Failure α} {f : α → Sharing β}
    {f' : α → Except Failure β} (hx : x.Settled disk entities y)
    (hf : ∀ a, (f a).Settled disk entities (f' a)) :
    (x.andThen f).Settled disk entities (y >>= f') := by
  induction x with
  | done result =>
    cases hx
    cases y with
    | error failure => rfl
    | ok a => exact hf a
  | look p next ih =>
    obtain ⟨hp, hnone, hsome⟩ := hx
    exact ⟨hp, ih none hnone, fun draft hread => ih _ (hsome draft hread)⟩
  | keep p draft next ih =>
    obtain ⟨hp, hread, hnext⟩ := hx
    exact ⟨hp, hread, ih draft hnext⟩

theorem settled_each {f : α → Sharing β} {f' : α → Except Failure β}
    (hf : ∀ a, (f a).Settled disk entities (f' a)) (as : List α) :
    (Sharing.each f as).Settled disk entities (as.mapM f') := by
  induction as with
  | nil => rfl
  | cons a later ih =>
    rw [List.mapM_cons]
    exact settled_andThen (hf a) fun b => settled_andThen ih fun more => rfl

theorem settled_loadSharing (p : Path) :
    (loadSharing disk entities p.normalize).Settled disk entities
      (readDraft disk entities p.normalize) := by
  refine ⟨p.ofComponents_components_normalize, ?_, fun draft hread => hread.symm⟩
  dsimp only
  cases hread : readDraft disk entities p.normalize with
  | error failure => exact rfl
  | ok draft => exact ⟨p.ofComponents_components_normalize, hread, rfl⟩

theorem settled_resolveSharing (base : Path) (steps : Nat) (way : List Path) (p : Path) :
    (resolveSharing disk entities base steps way p).Settled disk entities
      (unfoldFrom disk entities base steps way p) := by
  induction steps generalizing way p with
  | zero => exact rfl
  | succ steps ih =>
    simp only [resolveSharing, unfoldFrom, List.contains_iff_mem]
    split
    · exact rfl
    · refine settled_andThen (settled_loadSharing p) fun draft => ?_
      exact settled_andThen (settled_each (fun i => ih _ _) _) fun imports => rfl

/-- A worker keeps to the result that it has with a cache of its own. -/
theorem settled_compileSharing (settings : Settings) (p : Path) :
    (compileSharing disk settings p).Settled disk settings.entities
      (compileAlone disk settings p) := by
  rw [compileAlone, compile, (gives_compileIn p p.directory {} (Cache.faithful_empty _ _)).1]
  exact settled_andThen (settled_resolveSharing _ _ _ _) fun tree => rfl

theorem faithful_insert {c : Cache} {p : Path} {draft : Draft} (hc : c.Faithful disk entities)
    (hp : .ofComponents p.components = p) (hread : readDraft disk entities p = .ok draft) :
    (c.insert p draft).Faithful disk entities := by
  intro entry he
  rw [Cache.insert] at he
  split at he
  · exact hc entry he
  · rcases List.mem_cons.1 he with rfl | he
    · exact hp.symm ▸ hread
    · exact hc entry he

/-- A step leaves a cache of drafts from the files themselves and a worker that keeps to its
    result. -/
theorem settled_step {r : Except Failure α} {x : Sharing α} {c : Cache}
    (hc : c.Faithful disk entities) (hx : x.Settled disk entities r) :
    (x.step c).1.Settled disk entities r ∧ (x.step c).2.Faithful disk entities := by
  cases x with
  | done result => exact ⟨hx, hc⟩
  | look p next =>
    obtain ⟨hp, hnone, hsome⟩ := hx
    rw [Sharing.step]
    cases hget : c.get? p with
    | none => exact ⟨hnone, hc⟩
    | some draft => exact ⟨hsome draft (hc.readDraft_eq hp hget), hc⟩
  | keep p draft next =>
    obtain ⟨hp, hread, hnext⟩ := hx
    have hkept := faithful_insert hc hp hread
    refine ⟨?_, hkept⟩
    rw [Sharing.step]
    cases hget : (c.insert p draft).get? p with
    | none => exact hnext
    | some kept =>
      -- what another worker kept first is what this one has read
      have hsame := hread.symm.trans (hkept.readDraft_eq hp hget)
      cases hsame
      exact hnext

end

/-! ## Workers that take turns -/

/-- Workers that share a cache. -/
structure Workforce where
  cache : Cache := {}
  workers : List (Sharing Graph)

namespace Workforce

/-- The worker of a number takes its next step, if there is such a worker. -/
def step (w : Workforce) (i : Nat) : Workforce :=
  match w.workers[i]? with
  | none => w
  | some x => ⟨(x.step w.cache).2, w.workers.set i (x.step w.cache).1⟩

/-- The workers take their steps in the order of a schedule. -/
def run (w : Workforce) (schedule : List Nat) : Workforce := schedule.foldl step w

/-- The result of every worker that has ended, each in its place. -/
def slots (w : Workforce) : List (Option (Except Failure Graph)) := w.workers.map Sharing.result?

/-- A worker for each path, and nothing in the cache. -/
def start (disk : Disk) (settings : Settings) (paths : List Path) : Workforce where
  workers := paths.map (compileSharing disk settings)

/-- The cache holds drafts of the files themselves, and every worker keeps to one result. -/
structure Settled (disk : Disk) (entities : Xml.EntityMap) (results : List (Except Failure Graph))
    (w : Workforce) : Prop where
  faithful : w.cache.Faithful disk entities
  length : w.workers.length = results.length
  worker : ∀ {i : Nat} {x : Sharing Graph} {r : Except Failure Graph}, w.workers[i]? = some x →
    results[i]? = some r → x.Settled disk entities r

variable {disk : Disk} {entities : Xml.EntityMap} {results : List (Except Failure Graph)}
  {w : Workforce}

theorem settled_start (disk : Disk) (settings : Settings) (paths : List Path) :
    (start disk settings paths).Settled disk settings.entities
      (paths.map (compileAlone disk settings)) := by
  refine ⟨Cache.faithful_empty _ _, by simp [start], fun {i x r} hx hr => ?_⟩
  rw [start, List.getElem?_map] at hx
  rw [List.getElem?_map] at hr
  obtain ⟨p, hp, rfl⟩ := Option.map_eq_some_iff.1 hx
  rw [hp] at hr
  cases hr
  exact settled_compileSharing settings p

theorem Settled.step (h : w.Settled disk entities results) (i : Nat) :
    (w.step i).Settled disk entities results := by
  unfold Workforce.step
  cases hx : w.workers[i]? with
  | none => exact h
  | some x =>
    have hlt := (List.getElem?_eq_some_iff.1 hx).1
    obtain ⟨r, hr⟩ : ∃ r, results[i]? = some r :=
      ⟨_, List.getElem?_eq_getElem (h.length ▸ hlt)⟩
    obtain ⟨hstep, hkept⟩ := settled_step h.faithful (h.worker hx hr)
    refine ⟨hkept, by rw [List.length_set, h.length], fun {j y r'} hy hr' => ?_⟩
    dsimp only at hy
    rw [List.getElem?_set] at hy
    split at hy
    · next hij =>
      subst hij
      rw [Option.some.injEq] at hy
      rw [hr, Option.some.injEq] at hr'
      rwa [← hy, ← hr']
    · exact h.worker hy hr'

/-- Whatever the schedule, every worker keeps to its result. -/
theorem Settled.run (h : w.Settled disk entities results) (schedule : List Nat) :
    (w.run schedule).Settled disk entities results := by
  induction schedule generalizing w with
  | nil => exact h
  | cons i later ih => exact ih (h.step i)

/-- A worker that has ended has its own result. -/
theorem Settled.slots (h : w.Settled disk entities results)
    (hended : ∀ slot ∈ w.slots, slot.isSome) : w.slots = results.map some := by
  refine List.ext_getElem? fun i => ?_
  rw [Workforce.slots, List.getElem?_map, List.getElem?_map]
  cases hx : w.workers[i]? with
  | none =>
    have hnone : results[i]? = none := by
      rw [List.getElem?_eq_none_iff] at hx ⊢
      rwa [← h.length]
    rw [hnone]
    rfl
  | some x =>
    obtain ⟨r, hr⟩ : ∃ r, results[i]? = some r :=
      ⟨_, List.getElem?_eq_getElem (h.length ▸ (List.getElem?_eq_some_iff.1 hx).1)⟩
    have hsettled := h.worker hx hr
    have hsome := hended x.result? (List.mem_map.2 ⟨x, List.mem_of_getElem? hx, rfl⟩)
    rw [hr]
    cases x with
    | done result =>
      cases hsettled
      rfl
    | look p next => cases hsome
    | keep p draft next => cases hsome

/-- Whoever has ended, has ended with its own result. -/
theorem Settled.eq_of_slots (h : w.Settled disk entities results)
    {ended : List (Except Failure Graph)} (hended : w.slots = ended.map some) :
    ended = results := by
  have hslots := h.slots fun slot hslot => by
    rw [hended] at hslot
    obtain ⟨r, _, rfl⟩ := List.mem_map.1 hslot
    rfl
  exact (List.map_inj_right fun _ _ => Option.some.inj).1 (hended.symm.trans hslots)

/-! ## Schedules that end -/

theorem run_append (w : Workforce) (schedule more : List Nat) :
    w.run (schedule ++ more) = (w.run schedule).run more := List.foldl_append

theorem length_workers_run (w : Workforce) (schedule : List Nat) :
    (w.run schedule).workers.length = w.workers.length := by
  induction schedule generalizing w with
  | nil => rfl
  | cons i later ih =>
    refine (ih (w.step i)).trans ?_
    unfold step
    split
    · rfl
    · exact List.length_set

/-- A step changes the worker that takes it and no other. -/
theorem getElem?_workers_step {i : Nat} {x : Sharing Graph} (hx : w.workers[i]? = some x)
    (j : Nat) :
    (w.step i).workers[j]? = if j = i then some (x.step w.cache).1 else w.workers[j]? := by
  have hlt := (List.getElem?_eq_some_iff.1 hx).1
  unfold step
  rw [hx]
  dsimp only
  rw [List.getElem?_set]
  by_cases hj : j = i
  · subst hj
    simp [hlt]
  · rw [if_neg hj, if_neg fun e => hj e.symm]

/-- A worker can always be brought to its end by steps of its own, while the others wait. -/
theorem exists_run_worker {i : Nat} {x : Sharing Graph} (hx : w.workers[i]? = some x) :
    ∃ n result, ∀ j, (w.run (List.replicate n i)).workers[j]? =
      if j = i then some (.done result) else w.workers[j]? := by
  induction x generalizing w with
  | done result =>
    refine ⟨0, result, fun j => ?_⟩
    split
    · next hj => rw [hj]; exact hx
    · rfl
  | look p next ih =>
    have hnext : ∃ found, ((Sharing.look p next).step w.cache).1 = next found := by
      rw [Sharing.step]
      cases w.cache.get? p with
      | none => exact ⟨none, rfl⟩
      | some draft => exact ⟨some draft, rfl⟩
    obtain ⟨found, hfound⟩ := hnext
    have hstep := getElem?_workers_step hx
    obtain ⟨n, result, hrun⟩ := ih found (by rw [hstep, if_pos rfl, hfound])
    refine ⟨n + 1, result, fun j => (hrun j).trans ?_⟩
    rw [hstep]
    split <;> rfl
  | keep p draft next ih =>
    have hstep := getElem?_workers_step hx
    obtain ⟨n, result, hrun⟩ := ih _ (by rw [hstep, if_pos rfl, Sharing.step])
    refine ⟨n + 1, result, fun j => (hrun j).trans ?_⟩
    rw [hstep]
    split <;> rfl

/-- Whatever was done so far, the workers can all be brought to their ends. -/
theorem exists_finishing (w : Workforce) :
    ∃ schedule, ∀ slot ∈ (w.run schedule).slots, slot.isSome := by
  have hprefix : ∀ k ≤ w.workers.length, ∃ schedule, ∀ j < k, ∃ result,
      (w.run schedule).workers[j]? = some (.done result) := by
    intro k
    induction k with
    | zero => exact fun _ => ⟨[], fun j hj => absurd hj (Nat.not_lt_zero j)⟩
    | succ k ih =>
      intro hk
      obtain ⟨schedule, hdone⟩ := ih (Nat.le_of_succ_le hk)
      have hlt : k < (w.run schedule).workers.length := by
        rw [length_workers_run]
        exact hk
      obtain ⟨n, result, hmore⟩ := exists_run_worker (List.getElem?_eq_getElem hlt)
      refine ⟨schedule ++ List.replicate n k, fun j hj => ?_⟩
      rw [run_append, hmore]
      split
      · exact ⟨result, rfl⟩
      · exact hdone j (by omega)
  obtain ⟨schedule, hdone⟩ := hprefix w.workers.length (Nat.le_refl _)
  refine ⟨schedule, fun slot hslot => ?_⟩
  obtain ⟨x, hx, rfl⟩ := List.mem_map.1 hslot
  obtain ⟨j, hj⟩ := List.getElem?_of_mem hx
  have hlt := (List.getElem?_eq_some_iff.1 hj).1
  rw [length_workers_run] at hlt
  obtain ⟨result, hresult⟩ := hdone j hlt
  rw [hj, Option.some.injEq] at hresult
  rw [hresult]
  rfl

/-- After any schedule, the workers can be brought to the results that their paths have alone. -/
theorem exists_ended (disk : Disk) (settings : Settings) (paths : List Path)
    (schedule : List Nat) : ∃ more, ((start disk settings paths).run (schedule ++ more)).slots =
      (paths.map (compileAlone disk settings)).map some := by
  obtain ⟨more, hended⟩ := ((start disk settings paths).run schedule).exists_finishing
  refine ⟨more, ?_⟩
  rw [run_append]
  exact (((settled_start disk settings paths).run schedule).run more).slots hended

end Workforce

end SchemaFamily
