import SchemaFamily.Proofs.Disk.Spelling
import SchemaFamily.Proofs.Family.Drafts
import SchemaFamily.Proofs.Results

/-
  Unfolding imports. What a search does with a cache of drafts from the files themselves is what it
  does without a cache (`gives_resolveFrom`), because drafts are kept under normalised paths and a
  normalised path is found again under its own components only. A tree that the search builds
  `Unfolds` its path: every node is the draft of a file, and the trees below it unfold what the
  draft imports, one after the other. A path unfolds to one tree at most (`Unfolds.unique`).
-/

namespace SchemaFamily

/-- Every draft of the cache is the one in the file under whose path it is kept. -/
def Cache.Faithful (disk : Disk) (entities : Xml.EntityMap) (c : Cache) : Prop :=
  ∀ entry ∈ c.drafts, readDraft disk entities (.ofComponents entry.1) = .ok entry.2

theorem Cache.faithful_empty (disk : Disk) (entities : Xml.EntityMap) :
    Cache.Faithful disk entities {} := by
  intro entry h
  cases h

theorem Cache.Faithful.readFromTexts {disk : Disk} {entities : Xml.EntityMap} {c : Cache}
    (hc : c.Faithful disk entities) : c.ReadFromTexts :=
  fun entry he => readFromText_of_readDraft (hc entry he)

/-! ## Searching without a cache -/

/-- The search of `resolveFrom`, every draft read from its file. -/
def unfoldFrom (disk : Disk) (entities : Xml.EntityMap) (base : Path) :
    (steps : Nat) → (way : List Path) → Path → Except Failure ImportTree
  | 0, way, p => .error (.importCycle (way ++ [p.normalize]))
  | steps + 1, way, p =>
    if p.normalize ∈ way then .error (.importCycle (way ++ [p.normalize]))
    else do
      let draft ← readDraft disk entities p.normalize
      let imports ← draft.imports.mapM fun i =>
        unfoldFrom disk entities base steps (way ++ [p.normalize]) (base.join ⟨i.href⟩)
      return .node draft imports

section

variable {disk : Disk} {entities : Xml.EntityMap} {base : Path}

/-- With every faithful cache `x` has the result `y`, and the cache stays faithful. -/
def Gives {α : Type} (disk : Disk) (entities : Xml.EntityMap) (x : Loading α)
    (y : Except Failure α) : Prop :=
  ∀ c : Cache, c.Faithful disk entities →
    (x.run.run c).1 = y ∧ (x.run.run c).2.Faithful disk entities

namespace Gives

variable {α β : Type}

theorem pure (a : α) : Gives disk entities (Pure.pure a) (.ok a) := fun _ hc => ⟨rfl, hc⟩

theorem throw (failure : Failure) :
    Gives disk entities (MonadExcept.throw failure : Loading α) (.error failure) :=
  fun _ hc => ⟨rfl, hc⟩

theorem bind {x : Loading α} {y : Except Failure α} {f : α → Loading β}
    {f' : α → Except Failure β} (hx : Gives disk entities x y)
    (hf : ∀ a, Gives disk entities (f a) (f' a)) : Gives disk entities (x >>= f) (y >>= f') := by
  intro c hc
  obtain ⟨hy, hc'⟩ := hx c hc
  rw [Loading.run_bind]
  rcases hrun : x.run.run c with ⟨_ | a, c'⟩
  · rw [hrun] at hy hc'
    subst hy
    exact ⟨rfl, hc'⟩
  · rw [hrun] at hy hc'
    subst hy
    exact hf a c' hc'

theorem each {f : α → Loading β} {f' : α → Except Failure β}
    (hf : ∀ a, Gives disk entities (f a) (f' a)) (as : List α) :
    Gives disk entities (Loading.each f as) (as.mapM f') := by
  induction as with
  | nil => exact pure []
  | cons a later ih =>
    rw [List.mapM_cons]
    exact bind (hf a) fun b => bind ih fun more => pure (b :: more)

end Gives

/-- Under a normalised path a faithful cache has the draft in the file, if it has one. -/
theorem Cache.Faithful.readDraft_eq {c : Cache} (hc : c.Faithful disk entities) {p : Path}
    {draft : Draft} (hp : .ofComponents p.components = p) (h : c.get? p = some draft) :
    readDraft disk entities p = .ok draft := by
  obtain ⟨before, after, hd, _⟩ := List.lookup_eq_some_iff.1 h
  have := hc (p.components, draft) (by rw [hd]; simp)
  rwa [hp] at this

theorem gives_loadDraft (p : Path) :
    Gives disk entities (loadDraft disk entities p.normalize)
      (readDraft disk entities p.normalize) := by
  intro c hc
  have hkept : ((loadDraft disk entities p.normalize).run.run c).2.Faithful disk entities := by
    refine (loads_loadDraft (fun draft hread => ?_) c hc).1
    rwa [Path.ofComponents_components_normalize]
  refine ⟨?_, hkept⟩
  cases hget : c.get? p.normalize with
  | some draft =>
    rw [run_loadDraft_of_hit hget, hc.readDraft_eq p.ofComponents_components_normalize hget]
  | none =>
    cases hread : readDraft disk entities p.normalize with
    | error failure => rw [run_loadDraft_of_error hget hread]
    | ok draft => rw [run_loadDraft_of_ok hget hread]

theorem gives_resolveFrom (base : Path) (steps : Nat) (way : List Path) (p : Path) :
    Gives disk entities (resolveFrom disk entities base steps way p)
      (unfoldFrom disk entities base steps way p) := by
  induction steps generalizing way p with
  | zero => exact Gives.throw _
  | succ steps ih =>
    simp only [resolveFrom, unfoldFrom, List.contains_iff_mem]
    split
    · exact Gives.throw _
    · refine Gives.bind (gives_loadDraft p) fun draft => ?_
      exact Gives.bind (Gives.each (fun i => ih _ _) draft.imports) fun imports => Gives.pure _

/-- A faithful cache changes nothing but how often files are read. -/
theorem run_resolve {c : Cache} (hc : c.Faithful disk entities) (p base : Path) :
    ((resolve disk entities p base).run.run c).1 =
        unfoldFrom disk entities base (steps disk c) [] p ∧
      ((resolve disk entities p base).run.run c).2.Faithful disk entities := by
  rw [resolve, Loading.run_bind, Loading.run_get]
  exact gives_resolveFrom base (steps disk c) [] p c hc

end

/-! ## Trees of imports -/

/-- The path that an import names. -/
def Import.path (base : Path) (i : Import) : Path := base.join ⟨i.href⟩

/-- The trees are what following all imports from the paths leads to: the draft of each file with
    the trees of its imports, in order. -/
inductive Unfolds (disk : Disk) (entities : Xml.EntityMap) (base : Path) :
    List Path → List ImportTree → Prop
  | nil : Unfolds disk entities base [] []
  | cons {p : Path} {paths : List Path} {draft : Draft} {imports trees : List ImportTree}
      (found : readDraft disk entities p.normalize = .ok draft)
      (below : Unfolds disk entities base (draft.imports.map (Import.path base)) imports)
      (others : Unfolds disk entities base paths trees) :
      Unfolds disk entities base (p :: paths) (.node draft imports :: trees)

section

variable {disk : Disk} {entities : Xml.EntityMap} {base : Path} {paths : List Path}
  {trees : List ImportTree}

theorem Unfolds.unique {trees' : List ImportTree} (h : Unfolds disk entities base paths trees)
    (h' : Unfolds disk entities base paths trees') : trees = trees' := by
  induction h generalizing trees' with
  | nil =>
    cases h'
    rfl
  | cons found below others ihbelow ihothers =>
    cases h' with
    | cons found' below' others' =>
      rw [found] at found'
      cases found'
      rw [ihbelow below', ihothers others']

theorem Unfolds.append {later : List Path} {more : List ImportTree}
    (h : Unfolds disk entities base paths trees) (h' : Unfolds disk entities base later more) :
    Unfolds disk entities base (paths ++ later) (trees ++ more) := by
  induction h with
  | nil => exact h'
  | cons found below others _ ihothers => exact .cons found below ihothers

theorem unfolds_of_mapM {α : Type} {f : α → Except Failure ImportTree} {path : α → Path}
    (hf : ∀ a tree, f a = .ok tree → Unfolds disk entities base [path a] [tree]) {as : List α}
    {trees : List ImportTree} (h : as.mapM f = .ok trees) :
    Unfolds disk entities base (as.map path) trees := by
  induction as generalizing trees with
  | nil =>
    cases h
    exact .nil
  | cons a later ih =>
    obtain ⟨tree, more, ha, hmore, rfl⟩ := mapM_cons_eq_ok h
    exact (hf a tree ha).append (ih hmore)

/-- A tree that a search builds is what following all imports leads to. -/
theorem unfolds_of_unfoldFrom {steps : Nat} {way : List Path} {p : Path} {tree : ImportTree}
    (h : unfoldFrom disk entities base steps way p = .ok tree) :
    Unfolds disk entities base [p] [tree] := by
  induction steps generalizing way p tree with
  | zero => cases h
  | succ steps ih =>
    rw [unfoldFrom] at h
    split at h
    · cases h
    · cases hread : readDraft disk entities p.normalize with
      | error failure =>
        rw [hread] at h
        cases h
      | ok draft =>
        rw [hread] at h
        simp only [bind, Except.bind] at h
        split at h
        · cases h
        · next imports himports =>
          cases h
          exact .cons hread (unfolds_of_mapM (fun i tree hi => ih hi) himports) .nil

end

end SchemaFamily
