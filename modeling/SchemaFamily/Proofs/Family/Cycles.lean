import Mathlib.Data.List.Chain
import Mathlib.Data.List.Nodup
import Mathlib.Data.List.Perm.Subperm
import Mathlib.Logic.Relation
import SchemaFamily.Proofs.Draft.Extent
import SchemaFamily.Proofs.Family.Runs
import SchemaFamily.Proofs.Family.Unfolding

/-
  Cycles of imports. `Imports` is what one file imports of another, and a search reports a cycle
  exactly when this relation has one that the root reaches (`cycles_of_resolve`). A tree that is
  built shows that the relation is well founded below its root (`Unfolds.acc`). A report is the way
  of the search, each path imported by the one before it, and then a path of the way once more
  (`cycle_of_unfoldFrom`); the steps of the search do not run out before that, because the paths of
  a way are different and each but the first is named by an import (`length_way_le`).
-/

namespace SchemaFamily

open Relation

/-- The file at `a` imports `b`, both paths normalised. -/
def Imports (disk : Disk) (entities : Xml.EntityMap) (base a b : Path) : Prop :=
  ∃ draft, readDraft disk entities a = .ok draft ∧ ∃ i ∈ draft.imports, (i.path base).normalize = b

/-! ## Relations without cycles -/

section

variable {α : Type} {r : α → α → Prop} {a b : α}

theorem not_rel_self_of_acc (h : Acc r a) : ¬ r a a := by
  induction h with
  | intro a _ ih => exact fun hr => ih a hr hr

theorem acc_of_reflTransGen (h : Acc (Function.swap r) a) (hb : ReflTransGen r a b) :
    Acc (Function.swap r) b := by
  induction hb with
  | refl => exact h
  | tail _ hbc ih => exact ih.inv hbc

theorem not_transGen_self_of_acc (h : Acc (Function.swap r) a) (hb : ReflTransGen r a b) :
    ¬ TransGen r b b := fun ht =>
  not_rel_self_of_acc (acc_of_reflTransGen h hb).transGen (transGen_swap.2 ht)

theorem transGen_of_isChain {as : List α} (h : (a :: as).IsChain r) (hb : b ∈ as) :
    TransGen r a b := (h.imp fun _ _ => TransGen.single).rel_cons hb

/-- A chain that ends at one of its elements before shows a cycle. -/
theorem exists_cycle_of_isChain {init : List α} (h : (init ++ [b]).IsChain r) (hb : b ∈ init) :
    TransGen r b b := by
  obtain ⟨before, after, rfl⟩ := List.append_of_mem hb
  rw [List.append_assoc] at h
  exact transGen_of_isChain (h.right_of_append) (by simp)

end

section

variable {disk : Disk} {entities : Xml.EntityMap} {base : Path} {paths : List Path}
  {trees : List ImportTree}

/-! ## Trees show that there is no cycle -/

theorem Unfolds.acc (h : Unfolds disk entities base paths trees) :
    ∀ p ∈ paths, Acc (Function.swap (Imports disk entities base)) p.normalize := by
  induction h with
  | nil => simp
  | @cons p paths draft imports trees found _ _ ihbelow ihothers =>
    intro q hq
    rcases List.mem_cons.1 hq with rfl | hq
    · refine .intro _ ?_
      rintro _ ⟨draft', found', i, hi, rfl⟩
      rw [found] at found'
      cases found'
      exact ihbelow _ (List.mem_map.2 ⟨i, hi, rfl⟩)
    · exact ihothers q hq

theorem Unfolds.exists_draft (h : Unfolds disk entities base paths trees) :
    ∀ p ∈ paths, ∀ q, ReflTransGen (Imports disk entities base) p.normalize q →
      ∃ draft, readDraft disk entities q = .ok draft := by
  induction h with
  | nil => simp
  | @cons p paths draft imports trees found _ _ ihbelow ihothers =>
    intro p' hp' q hq
    rcases List.mem_cons.1 hp' with rfl | hp'
    · rcases hq.cases_head with rfl | ⟨_, ⟨draft', found', i, hi, rfl⟩, hq⟩
      · exact ⟨draft, found⟩
      · rw [found] at found'
        cases found'
        exact ihbelow _ (List.mem_map.2 ⟨i, hi, rfl⟩) q hq
    · exact ihothers p' hp' q hq

/-! ## Enough steps -/

/-- All imports in some texts are few: each is written with characters of its own. -/
theorem exists_imports_of_texts (entities : Xml.EntityMap) (texts : List String) :
    ∃ all : List Import, all.length ≤ (String.join texts).length ∧
      ∀ text ∈ texts, ∀ path draft, Draft.read entities path text = .ok draft →
        draft.imports ⊆ all := by
  induction texts with
  | nil => exact ⟨[], Nat.zero_le _, by simp⟩
  | cons text later ih =>
    obtain ⟨all, hlength, hall⟩ := ih
    rw [String.join_cons, String.length_append]
    by_cases h : ∃ path draft, Draft.read entities path text = .ok draft
    · obtain ⟨path, draft, hread⟩ := h
      refine ⟨draft.imports ++ all, ?_, fun text' ht path' draft' hread' => ?_⟩
      · have := Draft.length_imports_le hread
        rw [List.length_append]
        omega
      · rcases List.mem_cons.1 ht with rfl | ht
        · rw [← Draft.imports_eq hread hread']
          exact List.subset_append_left _ _
        · exact List.subset_append_of_subset_right _ (hall text' ht path' draft' hread')
    · refine ⟨all, by omega, fun text' ht path' draft' hread' => ?_⟩
      rcases List.mem_cons.1 ht with rfl | ht
      · exact absurd ⟨path', draft', hread'⟩ h
      · exact hall text' ht path' draft' hread'

/-- There are no more paths that files import than files have characters. -/
theorem exists_imported_paths (disk : Disk) (entities : Xml.EntityMap) (base : Path) :
    ∃ all : List Path, all.length ≤ disk.size ∧
      ∀ a b, Imports disk entities base a b → b ∈ all := by
  obtain ⟨all, hlength, hall⟩ := exists_imports_of_texts entities disk.texts
  refine ⟨all.map fun i => (i.path base).normalize, by rwa [List.length_map], ?_⟩
  rintro a _ ⟨draft, hread, i, hi, rfl⟩
  unfold readDraft at hread
  split at hread
  · cases hread
  · next text htext =>
    split at hread
    · cases hread
    · next hdraft =>
      cases hread
      exact List.mem_map.2 ⟨i, hall text (Disk.mem_texts_of_read htext) _ _ hdraft hi, rfl⟩

/-- A way of imports goes on with what its last file imports. -/
theorem isChain_extend {way : List Path} {p : Path} {draft : Draft} {i : Import}
    (hway : (way ++ [p.normalize]).IsChain (Imports disk entities base))
    (hread : readDraft disk entities p.normalize = .ok draft) (hi : i ∈ draft.imports) :
    ((way ++ [p.normalize]) ++ [(i.path base).normalize]).IsChain (Imports disk entities base) := by
  rw [List.append_assoc]
  exact List.isChain_append_cons_cons.2
    ⟨hway, ⟨draft, hread, i, hi, rfl⟩, List.isChain_singleton _⟩

/-- A way without repetitions is not longer than the steps of a search. -/
theorem length_way_le {way : List Path} (hway : way.IsChain (Imports disk entities base))
    (hnodup : way.Nodup) : way.length ≤ disk.size + 1 := by
  obtain ⟨all, hlength, hall⟩ := exists_imported_paths disk entities base
  cases way with
  | nil => exact Nat.zero_le _
  | cons root rest =>
    have hsub : rest ⊆ all := by
      intro b hb
      obtain ⟨a, _, hab⟩ := (TransGen.tail'_iff.1 (transGen_of_isChain hway hb))
      exact hall a b hab
    have hle := (List.subperm_of_subset (List.nodup_cons.1 hnodup).2 hsub).length_le
    rw [List.length_cons]
    omega

/-! ## Failing searches -/

/-- A search among files that can be read fails only at a cycle: with the way that it went, and a
    path of this way once more. -/
theorem cycle_of_unfoldFrom {steps : Nat} {way : List Path} {p : Path} {failure : Failure}
    (hreads : ∀ q, ReflTransGen (Imports disk entities base) p.normalize q →
      ∃ draft, readDraft disk entities q = .ok draft)
    (hway : (way ++ [p.normalize]).IsChain (Imports disk entities base)) (hnodup : way.Nodup)
    (hsteps : disk.size + 2 ≤ steps + way.length)
    (h : unfoldFrom disk entities base steps way p = .error failure) :
    ∃ init last, failure = .importCycle (init ++ [last]) ∧
      way ++ [p.normalize] <+: init ++ [last] ∧
      (init ++ [last]).IsChain (Imports disk entities base) ∧ init.Nodup ∧ last ∈ init := by
  induction steps generalizing way p with
  | zero =>
    have := length_way_le hway.left_of_append hnodup
    omega
  | succ steps ih =>
    rw [unfoldFrom] at h
    split at h
    · next hmem =>
      cases h
      exact ⟨way, p.normalize, rfl, List.prefix_rfl, hway, hnodup, hmem⟩
    · next hmem =>
      obtain ⟨draft, hread⟩ := hreads p.normalize .refl
      simp only [hread, bind, Except.bind] at h
      split at h
      · next himports =>
        cases h
        obtain ⟨i, hi, hfail⟩ := exists_of_mapM_error himports
        have himport : Imports disk entities base p.normalize (i.path base).normalize :=
          ⟨draft, hread, i, hi, rfl⟩
        have hsteps' : disk.size + 2 ≤ steps + (way ++ [p.normalize]).length := by
          rw [List.length_append, List.length_singleton]
          omega
        have hnodup' : (way ++ [p.normalize]).Nodup :=
          List.concat_eq_append ▸ List.Nodup.concat hmem hnodup
        obtain ⟨init, last, hf, hpre, hrest⟩ :=
          ih (fun q hq => hreads q (hq.head himport)) (isChain_extend hway hread hi)
            hnodup' hsteps' hfail
        exact ⟨init, last, hf, (List.prefix_append _ _).trans hpre, hrest⟩
      · cases h

/-! ## Resolving -/

variable {p : Path} {c : Cache}

/-- Among files that can be read resolving builds the tree of all imports or reports a cycle. -/
theorem resolve_or_cycle (hc : c.Faithful disk entities)
    (hreads : ∀ q, ReflTransGen (Imports disk entities base) p.normalize q →
      ∃ draft, readDraft disk entities q = .ok draft) :
    (∃ tree c', (resolve disk entities p base).run.run c = (.ok tree, c') ∧
      Unfolds disk entities base [p] [tree]) ∨
    ∃ init last c', (resolve disk entities p base).run.run c =
        (.error (.importCycle (init ++ [last])), c') ∧
      (init ++ [last]).head? = some p.normalize ∧
      (init ++ [last]).IsChain (Imports disk entities base) ∧ init.Nodup ∧ last ∈ init := by
  have hrun := (run_resolve hc p base).1
  cases hu : unfoldFrom disk entities base (steps disk c) [] p with
  | ok tree => exact .inl ⟨tree, _, Prod.ext (hrun.trans hu) rfl, unfolds_of_unfoldFrom hu⟩
  | error failure =>
    obtain ⟨init, last, rfl, hpre, hrest⟩ := cycle_of_unfoldFrom hreads
      (List.isChain_singleton _) List.nodup_nil (by rw [steps, List.length_nil]; omega) hu
    refine .inr ⟨init, last, _, Prod.ext (hrun.trans hu) rfl, ?_, hrest⟩
    obtain ⟨more, hmore⟩ := hpre
    rw [← hmore]
    rfl

/-- The end of a report is a path that the root reaches and that reaches itself. -/
theorem exists_cycle_of_report {init : List Path} {last : Path}
    (hhead : (init ++ [last]).head? = some p.normalize)
    (hchain : (init ++ [last]).IsChain (Imports disk entities base)) (hmem : last ∈ init) :
    ReflTransGen (Imports disk entities base) p.normalize last ∧
      TransGen (Imports disk entities base) last last := by
  refine ⟨?_, exists_cycle_of_isChain hchain hmem⟩
  cases init with
  | nil => cases hmem
  | cons root rest =>
    cases hhead
    exact (transGen_of_isChain hchain (by simp)).to_reflTransGen

/-- A path resolves to the tree that following all its imports leads to, if there is one. -/
theorem resolve_of_unfolds (hc : c.Faithful disk entities) {tree : ImportTree}
    (h : Unfolds disk entities base [p] [tree]) :
    ∃ c', (resolve disk entities p base).run.run c = (.ok tree, c') := by
  rcases resolve_or_cycle hc (h.exists_draft p (by simp)) with
    ⟨tree', c', hr, h'⟩ | ⟨init, last, _, _, hhead, hchain, _, hmem⟩
  · cases h.unique h'
    exact ⟨c', hr⟩
  · obtain ⟨hreach, hcycle⟩ := exists_cycle_of_report hhead hchain hmem
    exact absurd hcycle (not_transGen_self_of_acc (h.acc p (by simp)) hreach)

theorem unfolds_of_resolve (hc : c.Faithful disk entities) {tree : ImportTree} {c' : Cache}
    (hr : (resolve disk entities p base).run.run c = (.ok tree, c')) :
    Unfolds disk entities base [p] [tree] ∧ c'.Faithful disk entities := by
  obtain ⟨hrun, hc'⟩ := run_resolve hc p base
  rw [hr] at hrun hc'
  exact ⟨unfolds_of_unfoldFrom hrun.symm, hc'⟩

/-- When some paths can be read and import no others, all that they reach can be read. -/
theorem reads_of_closed (keys : List Path)
    (h : ∀ a ∈ keys, ∃ draft, readDraft disk entities a = .ok draft ∧
      ∀ i ∈ draft.imports, (i.path base).normalize ∈ keys) {a q : Path} (ha : a ∈ keys)
    (hq : ReflTransGen (Imports disk entities base) a q) :
    ∃ draft, readDraft disk entities q = .ok draft := by
  have hmem : q ∈ keys := by
    induction hq with
    | refl => exact ha
    | tail _ hbc ih =>
      obtain ⟨draft, hread, i, hi, rfl⟩ := hbc
      obtain ⟨draft', hread', himports⟩ := h _ ih
      rw [hread] at hread'
      cases hread'
      exact himports i hi
  obtain ⟨draft, hread, _⟩ := h q hmem
  exact ⟨draft, hread⟩

/-- Where every file that a path reaches by imports can be read, the path resolves exactly when no
    path that it reaches imports itself, directly or through others, however often and along
    however many ways files are imported. Else the failure is a chain of imports: it starts with
    the path, each entry is imported by the one before it, and only the last has been there before.
    The cache may hold drafts of the files; an empty one is `Cache.faithful_empty`. -/
theorem cycles_of_resolve (hc : c.Faithful disk entities)
    (hreads : ∀ q, ReflTransGen (Imports disk entities base) p.normalize q →
      ∃ draft, readDraft disk entities q = .ok draft) :
    ((∃ tree c', (resolve disk entities p base).run.run c = (.ok tree, c')) ↔
      ∀ q, ReflTransGen (Imports disk entities base) p.normalize q →
        ¬ TransGen (Imports disk entities base) q q) ∧
    ((¬ ∃ tree c', (resolve disk entities p base).run.run c = (.ok tree, c')) →
      ∃ init last c', (resolve disk entities p base).run.run c =
          (.error (.importCycle (init ++ [last])), c') ∧
        (init ++ [last]).head? = some p.normalize ∧
        (init ++ [last]).IsChain (Imports disk entities base) ∧ init.Nodup ∧ last ∈ init) := by
  rcases resolve_or_cycle hc hreads with ⟨tree, c', hr, h⟩ | hreport
  · refine ⟨⟨fun _ q hq => ?_, fun _ => ⟨tree, c', hr⟩⟩, fun hno => absurd ⟨tree, c', hr⟩ hno⟩
    exact not_transGen_self_of_acc (h.acc p (by simp)) hq
  · refine ⟨⟨?_, fun hno => ?_⟩, fun _ => hreport⟩
    · obtain ⟨init, last, c', hr, _⟩ := hreport
      rintro ⟨tree, c'', hr'⟩
      rw [hr] at hr'
      cases hr'
    · obtain ⟨init, last, _, _, hhead, hchain, _, hmem⟩ := hreport
      obtain ⟨hreach, hcycle⟩ := exists_cycle_of_report hhead hchain hmem
      exact absurd hcycle (hno last hreach)

/-- A file that imports one that imports itself. -/
def selfImport : Disk := .ofSights
  [(⟨"a"⟩, .file (some "<METASCHEMA><import href=\"b\"/></METASCHEMA>")),
    (⟨"b"⟩, .file (some "<METASCHEMA><import href=\"./b\"/></METASCHEMA>"))]

theorem cycles_selfImport :
    ∃ init last c', (resolve selfImport [] ⟨"./a"⟩ ⟨""⟩).run.run {} =
        (.error (.importCycle (init ++ [last])), c') ∧
      (init ++ [last]).head? = some ⟨"a"⟩ ∧
      (init ++ [last]).IsChain (Imports selfImport [] ⟨""⟩) ∧ init.Nodup ∧ last ∈ init := by
  have hkeys : ∀ a ∈ [Path.mk "a", ⟨"b"⟩], (match readDraft selfImport [] a with
      | .ok draft => decide (∀ i ∈ draft.imports,
          (i.path ⟨""⟩).normalize ∈ [Path.mk "a", ⟨"b"⟩])
      | .error _ => false) = true := by
    decide +kernel
  have hreads : ∀ q, ReflTransGen (Imports selfImport [] ⟨""⟩) (Path.mk "./a").normalize q →
      ∃ draft, readDraft selfImport [] q = .ok draft := by
    intro q
    refine reads_of_closed [⟨"a"⟩, ⟨"b"⟩] (fun a ha => ?_) (by decide +kernel)
    have hkey := hkeys a ha
    split at hkey
    · next draft hread => exact ⟨draft, hread, of_decide_eq_true hkey⟩
    · cases hkey
  have hfails : ¬ ∃ tree c', (resolve selfImport [] ⟨"./a"⟩ ⟨""⟩).run.run {} = (.ok tree, c') := by
    have hkey : succeeds (fun _ _ => true)
        ((resolve selfImport [] ⟨"./a"⟩ ⟨""⟩).run.run {}) = false := by
      decide +kernel
    rintro ⟨tree, c', hr⟩
    rw [hr] at hkey
    cases hkey
  have hreport := (cycles_of_resolve (Cache.faithful_empty _ _) hreads).2 hfails
  rwa [show (Path.mk "./a").normalize = ⟨"a"⟩ by decide +kernel] at hreport

end

end SchemaFamily
