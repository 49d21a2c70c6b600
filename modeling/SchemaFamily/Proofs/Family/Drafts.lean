import SchemaFamily.Family.ImportTree
import SchemaFamily.Proofs.Draft.Fresh

/-
  The drafts of a family. A tree lists its drafts depth first, each before what it imports
  (`ImportTree.drafts`). When every draft that a cache holds was read from a text, so was every
  draft of a tree that is resolved with it, and the cache stays as it should
  (`readFromText_of_resolve`); hence nothing in the tree is resolved yet.
-/

namespace SchemaFamily

/-! ## The drafts of a tree -/

mutual

/-- The drafts of a tree, each before those that it imports. -/
def ImportTree.drafts : ImportTree → List Draft
  | .node draft imports => draft :: ImportTree.draftsOf imports

/-- The drafts of several trees in order. -/
def ImportTree.draftsOf : List ImportTree → List Draft
  | [] => []
  | tree :: later => tree.drafts ++ ImportTree.draftsOf later

end

theorem ImportTree.mem_draftsOf {draft : Draft} {trees : List ImportTree} :
    draft ∈ draftsOf trees ↔ ∃ tree ∈ trees, draft ∈ tree.drafts := by
  induction trees with
  | nil => simp [draftsOf]
  | cons tree later ih => simp [draftsOf, ih]

/-- The draft was read from some text. -/
def Draft.ReadFromText (draft : Draft) : Prop :=
  ∃ entities path source, Draft.read entities path source = .ok draft

/-- Every draft of the cache was read from some text. -/
def Cache.ReadFromTexts (c : Cache) : Prop := ∀ entry ∈ c.drafts, entry.2.ReadFromText

theorem Cache.readFromTexts_empty : Cache.ReadFromTexts {} := by
  intro entry h
  cases h

theorem Draft.ReadFromText.fresh {draft : Draft} (h : draft.ReadFromText) : draft.Fresh := by
  obtain ⟨_, _, _, h⟩ := h
  exact Draft.fresh_of_read h

/-! ## What loading keeps -/

theorem Loading.run_get (c : Cache) :
    (MonadState.get : Loading Cache).run.run c = (.ok c, c) := rfl

theorem Loading.run_bind {α β : Type} (x : Loading α) (f : α → Loading β) (c : Cache) :
    (x >>= f).run.run c =
      match x.run.run c with
      | (.ok a, c') => (f a).run.run c'
      | (.error failure, c') => (.error failure, c') := by
  show (ExceptT.bindCont f (x.run.run c).1) (x.run.run c).2 = _
  rcases x.run.run c with ⟨_ | _, _⟩ <;> rfl

/-- From a cache as `I` says, `x` leads to one that is so as well, and what it loads, if it does,
    is as `good` says. -/
def Loads {α : Type} (I : Cache → Prop) (x : Loading α) (good : α → Prop) : Prop :=
  ∀ c, I c → I (x.run.run c).2 ∧ ∀ a, (x.run.run c).1 = .ok a → good a

namespace Loads

variable {α β : Type} {I : Cache → Prop} {good : α → Prop} {good' : β → Prop}

theorem pure {a : α} (h : good a) : Loads I (Pure.pure a) good := by
  intro c hc
  refine ⟨hc, fun b hb => ?_⟩
  cases hb
  exact h

theorem throw (failure : Failure) : Loads I (MonadExcept.throw failure : Loading α) good := by
  intro c hc
  refine ⟨hc, fun b hb => ?_⟩
  cases hb

theorem bind {x : Loading α} {f : α → Loading β} (hx : Loads I x good)
    (hf : ∀ a, good a → Loads I (f a) good') : Loads I (x >>= f) good' := by
  intro c hc
  obtain ⟨hi, hg⟩ := hx c hc
  rw [Loading.run_bind]
  cases h : x.run.run c with
  | mk result c' =>
    rw [h] at hi hg
    cases result with
    | error failure => exact ⟨hi, fun b hb => by cases hb⟩
    | ok a => exact hf a (hg a rfl) c' hi

theorem get : Loads I (MonadState.get : Loading Cache) fun _ => True :=
  fun _ hc => ⟨hc, fun _ _ => trivial⟩

theorem each {f : α → Loading β} (hf : ∀ a, Loads I (f a) good') (as : List α) :
    Loads I (Loading.each f as) fun bs => ∀ b ∈ bs, good' b := by
  induction as with
  | nil => exact pure (by simp)
  | cons a later ih =>
    refine bind (hf a) fun b hb => bind ih fun more hmore => pure ?_
    intro b' hb'
    rcases List.mem_cons.1 hb' with rfl | hb'
    · exact hb
    · exact hmore b' hb'

end Loads

theorem readFromText_of_readDraft {disk : Disk} {entities : Xml.EntityMap} {p : Path}
    {draft : Draft} (h : readDraft disk entities p = .ok draft) : draft.ReadFromText := by
  unfold readDraft at h
  split at h
  · cases h
  · split at h
    · cases h
    · next hr =>
      cases h
      exact ⟨_, _, _, hr⟩

section

variable {disk : Disk} {entities : Xml.EntityMap} {p : Path} {c : Cache} {draft : Draft}

theorem run_loadDraft_of_hit (h : c.get? p = some draft) :
    (loadDraft disk entities p).run.run c = (.ok draft, { c with hits := c.hits + 1 }) := by
  rw [loadDraft, Loading.run_bind, Loading.run_get]
  dsimp only
  rw [h]
  rfl

theorem run_loadDraft_of_ok (h : c.get? p = none) (hd : readDraft disk entities p = .ok draft) :
    (loadDraft disk entities p).run.run c = (.ok draft, c.insert p draft) := by
  rw [loadDraft, Loading.run_bind, Loading.run_get]
  dsimp only
  rw [h]
  dsimp only
  rw [hd]
  rfl

theorem run_loadDraft_of_error {failure : Failure} (h : c.get? p = none)
    (hd : readDraft disk entities p = .error failure) :
    (loadDraft disk entities p).run.run c = (.error failure, c) := by
  rw [loadDraft, Loading.run_bind, Loading.run_get]
  dsimp only
  rw [h]
  dsimp only
  rw [hd]
  rfl

end

/-- Every entry of a cache is the draft of some file, as `P` says; so is what is loaded. -/
theorem loads_loadDraft {disk : Disk} {entities : Xml.EntityMap} {p : Path}
    {P : List Component × Draft → Prop}
    (h : ∀ draft, readDraft disk entities p = .ok draft → P (p.components, draft)) :
    Loads (fun c => ∀ entry ∈ c.drafts, P entry) (loadDraft disk entities p)
      fun draft => P (p.components, draft) := by
  intro c hc
  cases hget : c.get? p with
  | some draft =>
    rw [run_loadDraft_of_hit hget]
    refine ⟨hc, fun a ha => ?_⟩
    cases ha
    obtain ⟨before, after, hd, _⟩ := List.lookup_eq_some_iff.1 hget
    exact hc (p.components, draft) (by rw [hd]; simp)
  | none =>
    cases hread : readDraft disk entities p with
    | error failure =>
      rw [run_loadDraft_of_error hget hread]
      exact ⟨hc, fun a ha => by cases ha⟩
    | ok draft =>
      rw [run_loadDraft_of_ok hget hread]
      refine ⟨?_, fun a ha => by cases ha; exact h draft hread⟩
      intro entry he
      rw [Cache.insert] at he
      split at he
      · exact hc entry he
      · rcases List.mem_cons.1 he with rfl | he
        · exact h draft hread
        · exact hc entry he

/-- A search loads drafts under normalised paths only; what holds of each of them holds of every
    draft of the tree. -/
theorem loads_resolveFrom {disk : Disk} {entities : Xml.EntityMap} {I : Cache → Prop}
    {good : Draft → Prop} (hload : ∀ p : Path, Loads I (loadDraft disk entities p.normalize) good)
    (base : Path) (steps : Nat) (way : List Path) (p : Path) :
    Loads I (resolveFrom disk entities base steps way p)
      fun tree => ∀ draft ∈ tree.drafts, good draft := by
  induction steps generalizing way p with
  | zero => exact Loads.throw _
  | succ steps ih =>
    unfold resolveFrom
    dsimp only
    split
    · exact Loads.throw _
    · refine Loads.bind (hload p) fun draft hdraft => ?_
      refine Loads.bind (Loads.each (fun i => ih _ _) draft.imports) fun imports himports => ?_
      refine Loads.pure fun other ho => ?_
      rcases List.mem_cons.1 ho with rfl | ho
      · exact hdraft
      · obtain ⟨tree, ht, hm⟩ := ImportTree.mem_draftsOf.1 ho
        exact himports tree ht other hm

theorem loads_resolve {disk : Disk} {entities : Xml.EntityMap} {I : Cache → Prop}
    {good : Draft → Prop} (hload : ∀ p : Path, Loads I (loadDraft disk entities p.normalize) good)
    (p base : Path) :
    Loads I (resolve disk entities p base) fun tree => ∀ draft ∈ tree.drafts, good draft := by
  unfold resolve
  exact Loads.bind Loads.get fun c _ => loads_resolveFrom hload base (steps disk c) [] p

/-- A tree that is resolved with a cache of read drafts is one of read drafts. -/
theorem readFromText_of_resolve {disk : Disk} {entities : Xml.EntityMap} {p base : Path}
    {c c' : Cache} {tree : ImportTree} (hc : c.ReadFromTexts)
    (h : (resolve disk entities p base).run.run c = (.ok tree, c')) :
    (∀ draft ∈ tree.drafts, draft.ReadFromText) ∧ c'.ReadFromTexts := by
  have hload : ∀ p : Path, Loads Cache.ReadFromTexts (loadDraft disk entities p.normalize)
      Draft.ReadFromText := fun p =>
    loads_loadDraft (P := fun entry => entry.2.ReadFromText) fun _ => readFromText_of_readDraft
  have hl := loads_resolve hload p base c hc
  rw [h] at hl
  exact ⟨hl.2 tree rfl, hl.1⟩

theorem fresh_of_resolve {disk : Disk} {entities : Xml.EntityMap} {p base : Path}
    {c c' : Cache} {tree : ImportTree} (hc : c.ReadFromTexts)
    (h : (resolve disk entities p base).run.run c = (.ok tree, c')) :
    ∀ draft ∈ tree.drafts, draft.Fresh := fun draft hd =>
  ((readFromText_of_resolve hc h).1 draft hd).fresh

end SchemaFamily
