import SchemaFamily.Proofs.Family.Numbering
import SchemaFamily.Proofs.Family.Unfolding

/-
  Sessions with a cache. A load finds a draft, or reads one and keeps it, or fails and leaves the
  cache alone (`Load.cases_run`); after several loads the cache has under each path what the first
  of them read there that read anything (`get?_afterLoads`). All that a search does to a cache is to
  load: those loads are written down beside it (`loadsFrom`), and when it succeeds they give the
  drafts of its tree in order (`makes_resolveFrom`). Hence a cache that is only used, while files
  change and drafts are dropped, has at any time what the loads since the last clearing first read
  (`cache_of_session`).
-/

namespace SchemaFamily

/-! ## Loads -/

/-- A load: the files there are at the time, the entities known to who loads, and the path as it is
    spelled. -/
structure Load where
  disk : Disk
  entities : Xml.EntityMap
  path : Path

namespace Load

/-- What a load does with a cache. -/
def run (l : Load) (c : Cache) : Except Failure Draft × Cache :=
  (loadDraft l.disk l.entities l.path).run.run c

/-- There is a file at the path, and what it holds is read as the draft. -/
def Reads (l : Load) (draft : Draft) : Prop :=
  ∃ text, l.disk.read l.path = .ok text ∧ Draft.read l.entities l.path text = .ok draft

variable {l : Load} {c : Cache} {draft : Draft}

theorem reads_iff : l.Reads draft ↔ readDraft l.disk l.entities l.path = .ok draft := by
  unfold readDraft Reads
  constructor
  · rintro ⟨text, htext, hdraft⟩
    rw [htext]
    dsimp only
    rw [hdraft]
  · intro h
    split at h
    · cases h
    · next text htext =>
      split at h
      · cases h
      · next hdraft =>
        cases h
        exact ⟨text, htext, hdraft⟩

theorem Reads.unique {draft' : Draft} (h : l.Reads draft) (h' : l.Reads draft') :
    draft = draft' :=
  Except.ok.inj ((reads_iff.1 h).symm.trans (reads_iff.1 h'))

/-- A load gives the draft in the cache and counts a hit, or reads one that it keeps, or fails, as
    the file cannot be read, and leaves the cache as it is. -/
theorem cases_run (l : Load) (c : Cache) :
    (∃ draft, c.get? l.path = some draft ∧ l.run c = (.ok draft, { c with hits := c.hits + 1 })) ∨
      (c.get? l.path = none ∧ ∃ draft, l.Reads draft ∧
        l.run c = (.ok draft, { c with drafts := (l.path.components, draft) :: c.drafts })) ∨
      (c.get? l.path = none ∧ (∀ draft, ¬ l.Reads draft) ∧
        ∃ failure, l.run c = (.error failure, c)) := by
  cases hget : c.get? l.path with
  | some draft => exact .inl ⟨draft, rfl, run_loadDraft_of_hit hget⟩
  | none =>
    right
    cases hread : readDraft l.disk l.entities l.path with
    | ok draft =>
      have hcontains : c.contains l.path = false := by rw [Cache.contains, hget]; rfl
      refine .inl ⟨rfl, draft, reads_iff.2 hread, (run_loadDraft_of_ok hget hread).trans ?_⟩
      rw [Cache.insert, hcontains]
      rfl
    | error failure =>
      refine .inr ⟨rfl, fun draft hdraft => ?_, failure, run_loadDraft_of_error hget hread⟩
      cases hread.symm.trans (reads_iff.1 hdraft)

end Load

/-- Under the path, the first of the loads that reads anything reads the draft. -/
inductive FirstReads (p : Path) (draft : Draft) : List Load → Prop
  | here {l : Load} {later : List Load} (same : l.path.components = p.components)
      (reads : l.Reads draft) : FirstReads p draft (l :: later)
  | later {l : Load} {later : List Load}
      (fails : l.path.components = p.components → ∀ draft, ¬ l.Reads draft)
      (first : FirstReads p draft later) : FirstReads p draft (l :: later)

theorem FirstReads.exists_mem {p : Path} {draft : Draft} {loads : List Load}
    (h : FirstReads p draft loads) :
    ∃ l ∈ loads, l.path.components = p.components ∧ l.Reads draft := by
  induction h with
  | here same reads => exact ⟨_, List.mem_cons_self, same, reads⟩
  | later fails first ih =>
    obtain ⟨l, hl, hsame, hreads⟩ := ih
    exact ⟨l, List.mem_cons_of_mem _ hl, hsame, hreads⟩

namespace Cache

variable {l : Load} {loads : List Load} {c : Cache} {p : Path} {draft : Draft}

/-- The cache that loads leave. -/
def afterLoads (c : Cache) (loads : List Load) : Cache := loads.foldl (fun c l => (l.run c).2) c

/-- What the loads give, one after the other. -/
def given (c : Cache) : List Load → List (Except Failure Draft)
  | [] => []
  | l :: later => (l.run c).1 :: (l.run c).2.given later

theorem get?_cons (key : Path) (draft : Draft) (c : Cache) (p : Path) :
    get? { c with drafts := (key.components, draft) :: c.drafts } p =
      if p.components = key.components then some draft else c.get? p := by
  rw [get?, List.lookup_cons]
  split
  · next h => rw [if_pos (beq_iff_eq.1 h)]
  · next h => rw [if_neg (by simpa using h), get?]

theorem afterLoads_append (c : Cache) (loads later : List Load) :
    c.afterLoads (loads ++ later) = (c.afterLoads loads).afterLoads later := List.foldl_append

theorem given_append (c : Cache) (loads later : List Load) :
    c.given (loads ++ later) = c.given loads ++ (c.afterLoads loads).given later := by
  induction loads generalizing c with
  | nil => rfl
  | cons l loads ih => rw [List.cons_append, given, ih, given, List.cons_append]; rfl

theorem get?_run (l : Load) (c : Cache) (p : Path) :
    (l.run c).2.get? p = some draft ↔
      c.get? p = some draft ∨
        (c.get? p = none ∧ l.path.components = p.components ∧ l.Reads draft) := by
  rcases l.cases_run c with ⟨found, hget, hrun⟩ | ⟨hget, found, hreads, hrun⟩ |
    ⟨hget, hfails, failure, hrun⟩
  · rw [hrun]
    refine ⟨.inl, fun h => h.resolve_right fun ⟨hnone, hsame, _⟩ => ?_⟩
    rw [get?, hsame, ← get?, hnone] at hget
    cases hget
  · rw [hrun]
    dsimp only
    rw [get?_cons]
    split
    · next hsame =>
      rw [get?, ← hsame, ← get?] at hget
      rw [hget]
      constructor
      · intro h
        cases h
        exact .inr ⟨rfl, hsame.symm, hreads⟩
      · rintro (h | ⟨_, _, hdraft⟩)
        · cases h
        · rw [hreads.unique hdraft]
    · next hne => exact ⟨.inl, fun h => h.resolve_right fun ⟨_, hsame, _⟩ => hne hsame.symm⟩
  · rw [hrun]
    exact ⟨.inl, fun h => h.resolve_right fun ⟨_, _, hreads⟩ => hfails _ hreads⟩

/-- After some loads the cache has under a path what it had there, or else what the first of them
    read there that read anything. -/
theorem get?_afterLoads (c : Cache) (loads : List Load) (p : Path) :
    (c.afterLoads loads).get? p = some draft ↔
      c.get? p = some draft ∨ (c.get? p = none ∧ FirstReads p draft loads) := by
  induction loads generalizing c with
  | nil =>
    refine ⟨.inl, fun h => h.resolve_right ?_⟩
    rintro ⟨_, hfirst⟩
    cases hfirst
  | cons l later ih =>
    have hstep : c.afterLoads (l :: later) = (l.run c).2.afterLoads later := rfl
    cases hget : c.get? p with
    | some found =>
      have hkept : (l.run c).2.get? p = some found := (get?_run l c p).2 (.inl hget)
      rw [hstep, ih, hkept]
      simp
    | none =>
      by_cases hreads : l.path.components = p.components ∧ ∃ found, l.Reads found
      · obtain ⟨hsame, found, hfound⟩ := hreads
        have hnew : (l.run c).2.get? p = some found :=
          (get?_run l c p).2 (.inr ⟨hget, hsame, hfound⟩)
        rw [hstep, ih, hnew]
        constructor
        · rintro (h | ⟨h, _⟩)
          · cases h
            exact .inr ⟨rfl, .here hsame hfound⟩
          · cases h
        · rintro (h | ⟨_, hfirst⟩)
          · cases h
          · cases hfirst with
            | here _ hdraft => rw [hfound.unique hdraft]; exact .inl rfl
            | later hfails _ => exact absurd hfound (hfails hsame found)
      · have hfails : l.path.components = p.components → ∀ found, ¬ l.Reads found :=
          fun hsame found hfound => hreads ⟨hsame, found, hfound⟩
        have hnone : (l.run c).2.get? p = none := by
          refine Option.eq_none_iff_forall_ne_some.2 fun found hfound => ?_
          rcases (get?_run l c p).1 hfound with h | ⟨_, hsame, hread⟩
          · cases hget.symm.trans h
          · exact hfails hsame found hread
        rw [hstep, ih, hnone]
        refine or_congr Iff.rfl (and_congr Iff.rfl ⟨.later hfails, fun hfirst => ?_⟩)
        cases hfirst with
        | here hsame hread => exact absurd hread (hfails hsame draft)
        | later _ hfirst => exact hfirst

/-- A load that gives a draft makes one more entry or one more hit. -/
theorem size_add_hits_run (h : (l.run c).1 = .ok draft) :
    (l.run c).2.size + (l.run c).2.hits = c.size + c.hits + 1 := by
  rcases l.cases_run c with ⟨found, _, hrun⟩ | ⟨_, found, _, hrun⟩ | ⟨_, _, failure, hrun⟩
  · rw [hrun]
    rfl
  · rw [hrun]
    show c.drafts.length + 1 + c.hits = c.drafts.length + c.hits + 1
    omega
  · cases hrun ▸ h

/-- Loads that all give a draft make as many entries and hits as there are of them. -/
theorem size_add_hits_afterLoads {drafts : List Draft} (h : c.given loads = drafts.map .ok) :
    (c.afterLoads loads).size + (c.afterLoads loads).hits = c.size + c.hits + drafts.length := by
  induction loads generalizing c drafts with
  | nil =>
    obtain rfl := List.map_eq_nil_iff.1 h.symm
    rfl
  | cons l later ih =>
    obtain ⟨draft, more, rfl, hl, hlater⟩ := List.map_eq_cons_iff.1 h.symm
    have hmore := ih hlater.symm
    have hone := size_add_hits_run hl.symm
    rw [List.length_cons]
    show ((l.run c).2.afterLoads later).size + ((l.run c).2.afterLoads later).hits = _
    omega

/-- Drafts are kept under different paths. -/
def Keyed (c : Cache) : Prop := (c.drafts.map Prod.fst).Nodup

theorem keyed_run (h : c.Keyed) : (l.run c).2.Keyed := by
  rcases l.cases_run c with ⟨_, _, hrun⟩ | ⟨hget, _, _, hrun⟩ | ⟨_, _, _, hrun⟩
  · rw [hrun]
    exact h
  · rw [hrun]
    refine List.nodup_cons.2 ⟨fun hmem => ?_, h⟩
    obtain ⟨entry, hentry, hkey⟩ := List.mem_map.1 hmem
    have hne := List.lookup_eq_none_iff.1 hget entry hentry
    exact absurd hkey.symm (bne_iff_ne.1 hne)
  · rw [hrun]
    exact h

theorem keyed_afterLoads (h : c.Keyed) : (c.afterLoads loads).Keyed :=
  List.foldlRecOn loads _ h fun _ h _ _ => keyed_run h

end Cache

/-! ## Loads of a search -/

/-- The loads that `f` makes on a list, in order, up to the first failure, where `loads` are those
    that it makes on one thing. -/
def Loading.eachLoads {α β : Type} (f : α → Loading β) (loads : α → Cache → List Load) :
    List α → Cache → List Load
  | [], _ => []
  | a :: later, c =>
    match (f a).run.run c with
    | (.error _, _) => loads a c
    | (.ok _, c') => loads a c ++ eachLoads f loads later c'

/-- The loads that `resolveFrom` makes with a cache. -/
def loadsFrom (disk : Disk) (entities : Xml.EntityMap) (base : Path) :
    (steps : Nat) → (way : List Path) → Path → Cache → List Load
  | 0, _, _, _ => []
  | steps + 1, way, p, c =>
    let key := p.normalize
    if way.contains key then []
    else
      let l : Load := ⟨disk, entities, key⟩
      match l.run c with
      | (.error _, _) => [l]
      | (.ok draft, c') =>
        l :: Loading.eachLoads
          (fun i => resolveFrom disk entities base steps (way ++ [key]) (base.join ⟨i.href⟩))
          (fun i => loadsFrom disk entities base steps (way ++ [key]) (base.join ⟨i.href⟩))
          draft.imports c'

/-- The loads that `resolve` makes with a cache. -/
def loadsOf (disk : Disk) (entities : Xml.EntityMap) (p base : Path) (c : Cache) : List Load :=
  loadsFrom disk entities base (steps disk c) [] p c

/-- With the cache `x` does what the loads do, and when it gives something they give the drafts of
    it. -/
structure Makes {α : Type} (x : Loading α) (c : Cache) (loads : List Load)
    (drafts : α → List Draft) : Prop where
  cache : (x.run.run c).2 = c.afterLoads loads
  given : ∀ a, (x.run.run c).1 = .ok a → c.given loads = (drafts a).map .ok

section

variable {α β : Type} {x : Loading α} {f : α → Loading β} {c c' : Cache} {loads more : List Load}
  {drafts : α → List Draft} {drafts' : β → List Draft}

theorem Makes.bind_error {failure : Failure} (h : Makes x c loads drafts)
    (hrun : x.run.run c = (.error failure, c')) : Makes (x >>= f) c loads drafts' := by
  have hbind : (x >>= f).run.run c = (.error failure, c') := by rw [Loading.run_bind, hrun]
  have hcache := h.cache
  rw [hrun] at hcache
  refine ⟨by rw [hbind, ← hcache], fun b hb => ?_⟩
  rw [hbind] at hb
  cases hb

/-- What comes after `x` tells its own drafts behind those of `x`. -/
theorem Makes.bind_ok {a : α} (h : Makes x c loads drafts) (hrun : x.run.run c = (.ok a, c'))
    {own : β → List Draft} (hf : Makes (f a) c' more own)
    (hown : ∀ b, ((f a).run.run c').1 = .ok b → drafts' b = drafts a ++ own b) :
    Makes (x >>= f) c (loads ++ more) drafts' := by
  have hbind : (x >>= f).run.run c = (f a).run.run c' := by rw [Loading.run_bind, hrun]
  have hcache := h.cache
  have hgiven := h.given a (by rw [hrun])
  rw [hrun] at hcache
  refine ⟨?_, fun b hb => ?_⟩
  · rw [hbind, hf.cache, Cache.afterLoads_append, ← hcache]
  · rw [hbind] at hb
    rw [Cache.given_append, ← hcache, hgiven, hf.given b hb, hown b hb, List.map_append]

/-- A result that is only put into a form makes the same loads. -/
theorem Makes.map (h : Makes x c loads drafts) (g : α → β) (hg : ∀ a, drafts' (g a) = drafts a) :
    Makes (x >>= fun a => Pure.pure (g a)) c loads drafts' := by
  rcases hrun : x.run.run c with ⟨failure | a, c'⟩
  · exact h.bind_error hrun
  · have hpure : Makes (Pure.pure (g a) : Loading β) c' [] fun _ => [] := ⟨rfl, fun _ _ => rfl⟩
    rw [← List.append_nil loads]
    refine h.bind_ok hrun hpure fun b hb => ?_
    cases hb
    rw [hg, List.append_nil]

end

theorem makes_each {α β : Type} {f : α → Loading β} {loads : α → Cache → List Load}
    {drafts : β → List Draft} (hf : ∀ a c, Makes (f a) c (loads a c) drafts) (as : List α)
    (c : Cache) : Makes (Loading.each f as) c (Loading.eachLoads f loads as c)
      (List.flatMap drafts) := by
  induction as generalizing c with
  | nil =>
    refine ⟨rfl, fun bs hbs => ?_⟩
    cases hbs
    rfl
  | cons a later ih =>
    rw [Loading.each, Loading.eachLoads]
    rcases hrun : (f a).run.run c with ⟨failure | b, c'⟩
    · exact (hf a c).bind_error hrun
    · have hlater : Makes (Loading.each f later >>= fun more => Pure.pure (b :: more)) c'
          (Loading.eachLoads f loads later c') fun bs => bs.tail.flatMap drafts :=
        (ih c').map (b :: ·) fun _ => rfl
      refine (hf a c).bind_ok hrun hlater fun bs hbs => ?_
      rw [Loading.run_bind] at hbs
      split at hbs
      · cases hbs
        rfl
      · cases hbs

theorem ImportTree.draftsOf_eq_flatMap (trees : List ImportTree) :
    draftsOf trees = trees.flatMap drafts := by
  induction trees with
  | nil => rfl
  | cons tree later ih => rw [draftsOf, ih, List.flatMap_cons]

section

variable {disk : Disk} {entities : Xml.EntityMap} {base : Path}

theorem makes_load (l : Load) (c : Cache) :
    Makes (loadDraft l.disk l.entities l.path) c [l] fun draft => [draft] := by
  refine ⟨rfl, fun draft hdraft => ?_⟩
  rw [Cache.given, Cache.given, List.map_singleton, ← hdraft]
  rfl

/-- A search does what its loads do to the cache, and when it succeeds the loads give the drafts of
    the tree in order. -/
theorem makes_resolveFrom (steps : Nat) (way : List Path) (p : Path) (c : Cache) :
    Makes (resolveFrom disk entities base steps way p) c
      (loadsFrom disk entities base steps way p c) ImportTree.drafts := by
  induction steps generalizing way p c with
  | zero => exact ⟨rfl, fun _ h => by cases h⟩
  | succ steps ih =>
    rw [resolveFrom, loadsFrom]
    dsimp only
    split
    · exact ⟨rfl, fun _ h => by cases h⟩
    · have hload := makes_load ⟨disk, entities, p.normalize⟩ c
      rcases hrun : Load.run ⟨disk, entities, p.normalize⟩ c with ⟨failure | draft, c'⟩
      · exact hload.bind_error hrun
      · have heach := makes_each (fun (i : Import) c => ih (way ++ [p.normalize])
          (base.join ⟨i.href⟩) c) draft.imports c'
        have hnode : Makes (_ >>= fun trees => Pure.pure (ImportTree.node draft trees)) c' _
            fun tree => ImportTree.draftsOf tree.imports :=
          heach.map (ImportTree.node draft) ImportTree.draftsOf_eq_flatMap
        refine hload.bind_ok hrun hnode fun tree htree => ?_
        rw [Loading.run_bind] at htree
        split at htree
        · cases htree
          rfl
        · cases htree

theorem makes_resolve (p base : Path) (c : Cache) :
    Makes (resolve disk entities p base) c (loadsOf disk entities p base c)
      ImportTree.drafts := by
  have hrun : (resolve disk entities p base).run.run c =
      (resolveFrom disk entities base (steps disk c) [] p).run.run c := by
    rw [resolve, Loading.run_bind, Loading.run_get]
  obtain ⟨hcache, hgiven⟩ := makes_resolveFrom (steps disk c) [] p c
  rw [loadsOf]
  refine ⟨?_, ?_⟩
  · rw [hrun]
    exact hcache
  · rw [hrun]
    exact hgiven

/-- A search loads from the files that there are, with the entities it was started with, and under
    normalised paths. -/
theorem forall_mem_loadsFrom (steps : Nat) (way : List Path) (p : Path) (c : Cache) :
    ∀ l ∈ loadsFrom disk entities base steps way p c,
      l.disk = disk ∧ l.entities = entities ∧ l.path.normalize = l.path := by
  induction steps generalizing way p c with
  | zero => exact List.forall_mem_nil _
  | succ steps ih =>
    rw [loadsFrom]
    dsimp only
    split
    · exact List.forall_mem_nil _
    · split
      · exact List.forall_mem_singleton.2 ⟨rfl, rfl, Path.normalize_normalize p⟩
      · next draft c' hload =>
        clear hload
        refine List.forall_mem_cons.2 ⟨⟨rfl, rfl, Path.normalize_normalize p⟩, ?_⟩
        generalize draft.imports = imports
        induction imports generalizing c' with
        | nil => exact List.forall_mem_nil _
        | cons i later ihlater =>
          rw [Loading.eachLoads]
          split
          · exact ih _ _ _
          · exact List.forall_mem_append.2 ⟨ih _ _ _, ihlater _⟩

end

/-! ## Sessions -/

/-- What is done in a session: a loader with some entities loads or resolves a path, files are
    written or removed, which leaves others than before, or the cache is cleared. -/
inductive Action where
  | load (entities : Xml.EntityMap) (path : Path)
  | resolve (entities : Xml.EntityMap) (path base : Path)
  | change (disk : Disk)
  | clear

/-- A session with one cache: the files as they are, the cache, and the loads made since it was
    cleared last. -/
structure Session where
  disk : Disk
  cache : Cache := {}
  loads : List Load := []

namespace Session

/-- The loads of a loader that loads the path. -/
def loadOf (s : Session) (entities : Xml.EntityMap) (p : Path) : Load := ⟨s.disk, entities, p⟩

/-- The session after one action. -/
def step (s : Session) : Action → Session
  | .load entities p =>
    let l := s.loadOf entities p
    { s with cache := (l.run s.cache).2, loads := s.loads ++ [l] }
  | .resolve entities p base =>
    { s with
      cache := ((resolve s.disk entities p base).run.run s.cache).2
      loads := s.loads ++ loadsOf s.disk entities p base s.cache }
  | .change disk => { s with disk }
  | .clear => { s with cache := s.cache.clear, loads := [] }

/-- The session after some actions. -/
def after (s : Session) (actions : List Action) : Session := actions.foldl step s

/-- The entries of the cache are those that the loads since the last clearing leave in an empty
    cache. -/
def Recorded (s : Session) : Prop :=
  ∃ hits, s.cache = ({ hits } : Cache).afterLoads s.loads

variable {s : Session} {p : Path} {draft : Draft}

theorem step_of_resolve (s : Session) (entities : Xml.EntityMap) (p base : Path) :
    (s.step (.resolve entities p base)).cache =
      s.cache.afterLoads (loadsOf s.disk entities p base s.cache) :=
  (makes_resolve p base s.cache).cache

theorem recorded_step (h : s.Recorded) (action : Action) : (s.step action).Recorded := by
  obtain ⟨hits, hcache⟩ := h
  cases action with
  | load entities p =>
    refine ⟨hits, ?_⟩
    show (Load.run _ s.cache).2 = Cache.afterLoads _ (s.loads ++ [_])
    rw [Cache.afterLoads_append, ← hcache]
    rfl
  | resolve entities p base =>
    refine ⟨hits, ?_⟩
    rw [step_of_resolve]
    show _ = Cache.afterLoads _ (s.loads ++ _)
    rw [Cache.afterLoads_append, ← hcache]
  | change disk => exact ⟨hits, hcache⟩
  | clear => exact ⟨s.cache.hits, rfl⟩

theorem recorded_after (h : s.Recorded) (actions : List Action) : (s.after actions).Recorded :=
  List.foldlRecOn actions _ h fun _ h action _ => recorded_step h action

theorem Recorded.keyed (h : s.Recorded) : s.cache.Keyed := by
  obtain ⟨hits, hcache⟩ := h
  rw [hcache]
  exact Cache.keyed_afterLoads List.nodup_nil

/-- The cache has under a path what the loads since the last clearing first read there. -/
theorem Recorded.get?_iff (h : s.Recorded) :
    s.cache.get? p = some draft ↔ FirstReads p draft s.loads := by
  obtain ⟨hits, hcache⟩ := h
  rw [hcache, Cache.get?_afterLoads]
  simp [Cache.get?]

/-- Only a clearing drops a draft. -/
theorem get?_step {action : Action} (h : action ≠ .clear) (hget : s.cache.get? p = some draft) :
    (s.step action).cache.get? p = some draft := by
  cases action with
  | load entities q => exact (Cache.get?_run _ _ _).2 (.inl hget)
  | resolve entities q base =>
    rw [step_of_resolve]
    exact (Cache.get?_afterLoads _ _ _).2 (.inl hget)
  | change disk => exact hget
  | clear => exact absurd rfl h

theorem get?_after {actions : List Action} (h : .clear ∉ actions)
    (hget : s.cache.get? p = some draft) : (s.after actions).cache.get? p = some draft := by
  induction actions generalizing s with
  | nil => exact hget
  | cons action later ih =>
    rw [List.mem_cons, not_or] at h
    exact ih h.2 (get?_step (Ne.symm h.1) hget)

end Session

theorem Graph.size_documents_eq (tree : ImportTree) :
    (Graph.ofTree tree).documents.size = tree.drafts.length := by
  refine Graph.ofTree_induction (P := fun drafts g => g.documents.size = drafts.length)
    ⟨rfl, fun drafts g draft h => ?_, fun drafts g parent child _ h => ?_⟩ tree
  · rw [Graph.size_documents_insert, h, List.length_append, List.length_singleton]
  · rw [Graph.attach, Array.size_modify, h]

/-- In every session with one cache, empty at first, whatever is loaded and resolved, by loaders
    with whatever entities, and however the files change in between: the drafts are kept under
    different paths; the one under a path is what the first load since the last clearing that read
    anything there read, from the file as it was then; and it is there until the cache is cleared.
    A load gives the draft in the cache and counts a hit, or adds the draft that it gives, or fails
    and changes nothing. A search that succeeds makes as many entries and hits as its graph has
    documents, and one that fails leaves nothing new but what loads of it have read. -/
theorem cache_of_session (disk : Disk) (actions : List Action) :
    let s := Session.after { disk } actions
    (s.cache.drafts.map Prod.fst).Nodup ∧
    (∀ p draft, s.cache.get? p = some draft ↔ FirstReads p draft s.loads) ∧
    (∀ more p draft, .clear ∉ more → s.cache.get? p = some draft →
      (s.after more).cache.get? p = some draft) ∧
    (∀ entities p, let l := s.loadOf entities p
      (∃ draft, s.cache.get? p = some draft ∧
        l.run s.cache = (.ok draft, { s.cache with hits := s.cache.hits + 1 })) ∨
      (s.cache.get? p = none ∧ ∃ draft, l.Reads draft ∧ l.run s.cache =
        (.ok draft, { s.cache with drafts := (p.components, draft) :: s.cache.drafts })) ∨
      (s.cache.get? p = none ∧ (∀ draft, ¬ l.Reads draft) ∧
        ∃ failure, l.run s.cache = (.error failure, s.cache))) ∧
    ∀ entities p base, let loads := loadsOf s.disk entities p base s.cache
      (∀ l ∈ loads, l.disk = s.disk ∧ l.entities = entities ∧ l.path.normalize = l.path) ∧
      match (resolve s.disk entities p base).run.run s.cache with
      | (.ok tree, c) =>
        c.size + c.hits = s.cache.size + s.cache.hits + (Graph.ofTree tree).documents.size
      | (.error _, c) => ∀ q draft, c.get? q = some draft → s.cache.get? q = some draft ∨
        ∃ l ∈ loads, l.path.components = q.components ∧ l.Reads draft := by
  intro s
  have hrecorded : s.Recorded := Session.recorded_after ⟨0, rfl⟩ actions
  refine ⟨hrecorded.keyed, fun p draft => hrecorded.get?_iff, fun more p draft => ?_,
    fun entities p => ?_, fun entities p base => ⟨?_, ?_⟩⟩
  · exact Session.get?_after
  · exact Load.cases_run (s.loadOf entities p) s.cache
  · exact forall_mem_loadsFrom (steps s.disk s.cache) [] p s.cache
  · have hmakes := @makes_resolve s.disk entities p base s.cache
    have hcache := hmakes.cache
    have hgiven := hmakes.given
    split
    · next tree c hrun =>
      rw [hrun] at hcache hgiven
      dsimp only at hcache
      rw [hcache, Graph.size_documents_eq]
      exact Cache.size_add_hits_afterLoads (hgiven tree rfl)
    · next failure c hrun =>
      rw [hrun] at hcache
      dsimp only at hcache
      intro q draft hget
      rw [hcache, Cache.get?_afterLoads] at hget
      exact hget.imp_right fun h => h.2.exists_mem

end SchemaFamily
