import SchemaFamily.Family.Walk
import SchemaFamily.Proofs.Results

/-
  Import subtrees. `Preorder` and `Postorder` say, without a search, in which order a walk takes
  the documents that some imports reach. `Spans` says that these documents are numbered in a row,
  depth first: the shape in which a family is built. Where it holds, both walks of a family end
  without a dangling handle, the one before its imports lists the row itself
  (`preorderFrom_of_spans`), the one after them lists the same documents, each once
  (`postorderFrom_of_spans`), and a name is looked up along the row (`lookup_of_spans`).
-/

namespace SchemaFamily.Graph

/-! ## Orders of documents -/

/-- Taking `ids` and what they import, depth first and each document before its imports, gives the
    second list. -/
inductive Preorder (g : Graph) : List DocumentId → List DocumentId → Prop where
  | nil : g.Preorder [] []
  | cons {id : DocumentId} {d : Document} {ids below later : List DocumentId}
      (found : g.document id = .ok d) (imports : g.Preorder d.imported below)
      (others : g.Preorder ids later) : g.Preorder (id :: ids) (id :: (below ++ later))

/-- Taking `ids` and what they import, depth first and each document after its imports, gives the
    second list. -/
inductive Postorder (g : Graph) : List DocumentId → List DocumentId → Prop where
  | nil : g.Postorder [] []
  | cons {id : DocumentId} {d : Document} {ids below later : List DocumentId}
      (found : g.document id = .ok d) (imports : g.Postorder d.imported below)
      (others : g.Postorder ids later) : g.Postorder (id :: ids) (below ++ id :: later)

/-- The documents from number `first` to before `last` are `ids` and what they import, depth first
    and each document before its imports. -/
inductive Spans (g : Graph) : List DocumentId → Nat → Nat → Prop where
  | nil (i : Nat) : g.Spans [] i i
  | cons {id : DocumentId} {d : Document} {ids : List DocumentId} {i j k : Nat}
      (number : id.index = i) (found : g.documents[i]? = some d)
      (imports : g.Spans d.imported (i + 1) j) (others : g.Spans ids j k) : g.Spans (id :: ids) i k

/-- The handles from number `first` to before `last`. -/
def handles (first last : Nat) : List DocumentId :=
  (List.range' first (last - first)).map .ofIndex

theorem handles_self (i : Nat) : handles i i = [] := by
  simp [handles]

theorem handles_cons {i k : Nat} (h : i < k) : handles i k = .ofIndex i :: handles (i + 1) k := by
  obtain ⟨n, rfl⟩ : ∃ n, k = i + n + 1 := ⟨k - i - 1, by omega⟩
  simp only [handles]
  rw [show i + n + 1 - i = n + 1 by omega, show i + n + 1 - (i + 1) = n by omega, List.range'_succ,
    List.map_cons]

theorem handles_append {i j k : Nat} (hij : i ≤ j) (hjk : j ≤ k) :
    handles i j ++ handles j k = handles i k := by
  simp only [handles, ← List.map_append]
  obtain ⟨m, rfl⟩ := Nat.exists_eq_add_of_le hij
  obtain ⟨n, rfl⟩ := Nat.exists_eq_add_of_le hjk
  rw [show i + m - i = m by omega, show i + m + n - (i + m) = n by omega,
    show i + m + n - i = m + n by omega, List.range'_append_1]

theorem document_of_getElem? {g : Graph} {id : DocumentId} {d : Document}
    (h : g.documents[id.index]? = some d) : g.document id = .ok d := by
  simp [document, h]

theorem getElem?_of_document {g : Graph} {id : DocumentId} {d : Document}
    (h : g.document id = .ok d) : g.documents[id.index]? = some d := by
  unfold document at h
  split at h
  · next hd => rw [hd]; cases h; rfl
  · cases h

namespace Spans

variable {g : Graph} {ids : List DocumentId} {i k : Nat}

theorem le (h : g.Spans ids i k) : i ≤ k := by
  induction h with
  | nil i => exact Nat.le_refl i
  | cons _ _ _ _ ih₁ ih₂ => omega

/-- Only the imports of the documents in the row matter. -/
theorem congr {g' : Graph} (h : g.Spans ids i k)
    (hg : ∀ e, i ≤ e → e < k →
      g'.documents[e]?.map (·.imported) = g.documents[e]?.map (·.imported)) :
    g'.Spans ids i k := by
  induction h with
  | nil i => exact .nil i
  | @cons id d ids i j k hid hd hbelow hlater ih₁ ih₂ =>
    have hij := hbelow.le
    have hjk := hlater.le
    have hi := hg i (Nat.le_refl i) (by omega)
    rw [hd, Option.map_some, Option.map_eq_some_iff] at hi
    obtain ⟨d', hd', himp⟩ := hi
    refine .cons hid hd' ?_ (ih₂ fun e h₁ h₂ => hg e (by omega) h₂)
    rw [himp]
    exact ih₁ fun e h₁ h₂ => hg e (by omega) (by omega)

/-- Every document in the row starts a row of its own. -/
theorem of_mem (h : g.Spans ids i k) {e : Nat} (hi : i ≤ e) (hk : e < k) :
    ∃ l, l ≤ k ∧ g.Spans [.ofIndex e] e l := by
  induction h with
  | nil i => omega
  | @cons id d ids i j k hid hd hbelow hlater ih₁ ih₂ =>
    have hij := hbelow.le
    have hjk := hlater.le
    rcases Nat.lt_or_ge e j with hej | hej
    · rcases Nat.lt_or_eq_of_le hi with hie | rfl
      · obtain ⟨l, hl, hs⟩ := ih₁ hie hej
        exact ⟨l, by omega, hs⟩
      · refine ⟨j, hjk, .cons ?_ hd hbelow (.nil j)⟩
        rw [← hid, Handle.ofIndex_index]
    · exact ih₂ hej hk

theorem exists_document (h : g.Spans ids i k) {e : Nat} (hi : i ≤ e) (hk : e < k) :
    ∃ d, g.documents[e]? = some d := by
  obtain ⟨l, _, hs⟩ := h.of_mem hi hk
  cases hs with
  | cons _ hd _ _ => exact ⟨_, hd⟩

theorem index_ofIndex (h : g.Spans ids i k) {e : Nat} (hi : i ≤ e) (hk : e < k) :
    (Handle.ofIndex e : DocumentId).index = e := by
  obtain ⟨l, _, hs⟩ := h.of_mem hi hk
  cases hs with
  | cons hid _ _ _ => exact hid

theorem preorder (h : g.Spans ids i k) : g.Preorder ids (handles i k) := by
  induction h with
  | nil i =>
    rw [handles_self]
    exact .nil
  | @cons id d ids i j k hid hd hbelow hlater ih₁ ih₂ =>
    have hij := hbelow.le
    have hjk := hlater.le
    rw [handles_cons (by omega), ← handles_append hij hjk, ← hid, Handle.ofIndex_index]
    rw [hid]
    exact .cons (document_of_getElem? (hid ▸ hd)) ih₁ ih₂

end Spans

/-! ## Walks along a row -/

theorem preorderFrom_of_none {g : Graph} {way : List DocumentId} {id : DocumentId}
    (h : g.documents[id.index]? = none) : g.preorderFrom way id = [.error (.document id)] := by
  rw [preorderFrom]
  split
  · rfl
  · next hd => cases h.symm.trans hd

theorem preorderFrom_of_mem {g : Graph} {way : List DocumentId} {id : DocumentId} {d : Document}
    (h : g.documents[id.index]? = some d) (hway : id ∈ way) :
    g.preorderFrom way id = [.error (.circular id)] := by
  rw [preorderFrom]
  split
  · next hnone => cases h.symm.trans hnone
  · rw [dif_pos hway]

theorem preorderFrom_of_getElem? {g : Graph} {way : List DocumentId} {id : DocumentId}
    {d : Document} (hd : g.documents[id.index]? = some d) (hw : id ∉ way) :
    g.preorderFrom way id =
      .ok d :: d.imported.flatMap fun child => g.preorderFrom (id :: way) child := by
  rw [preorderFrom]
  split
  · next hn => rw [hd] at hn; cases hn
  · next d' hd' =>
    rw [hd] at hd'
    cases hd'
    rw [dif_neg hw]

theorem postorderFrom_of_none {g : Graph} {way : List DocumentId} {id : DocumentId}
    (h : g.documents[id.index]? = none) : g.postorderFrom way id = [.error (.document id)] := by
  rw [postorderFrom]
  split
  · rfl
  · next hd => cases h.symm.trans hd

theorem postorderFrom_of_mem {g : Graph} {way : List DocumentId} {id : DocumentId} {d : Document}
    (h : g.documents[id.index]? = some d) (hway : id ∈ way) :
    g.postorderFrom way id = [.error (.circular id)] := by
  rw [postorderFrom]
  split
  · next hnone => cases h.symm.trans hnone
  · rw [dif_pos hway]

theorem postorderFrom_of_getElem? {g : Graph} {way : List DocumentId} {id : DocumentId}
    {d : Document} (hd : g.documents[id.index]? = some d) (hw : id ∉ way) :
    g.postorderFrom way id =
      (d.imported.flatMap fun child => g.postorderFrom (id :: way) child) ++ [.ok id] := by
  rw [postorderFrom]
  split
  · next hn => rw [hd] at hn; cases hn
  · next d' hd' =>
    rw [hd] at hd'
    cases hd'
    rw [dif_neg hw]

theorem not_mem_way {way : List DocumentId} {id : DocumentId} (hw : ∀ w ∈ way, w.index < id.index) :
    id ∉ way := fun h => Nat.lt_irrefl _ (hw id h)

theorem forall_mem_cons_way {way : List DocumentId} {id : DocumentId}
    (hw : ∀ w ∈ way, w.index < id.index) : ∀ w ∈ id :: way, w.index < id.index + 1 := by
  intro w h
  rcases List.mem_cons.1 h with rfl | h
  · exact Nat.lt_succ_self _
  · exact Nat.lt_succ_of_lt (hw w h)

/-- A walk that takes documents before their imports goes along the row: what is on the way has
    smaller numbers, so no document is met on the way to itself. -/
theorem preorderFrom_of_spans {g : Graph} {ids : List DocumentId} {i k : Nat}
    (h : g.Spans ids i k) {way : List DocumentId} (hw : ∀ w ∈ way, w.index < i) :
    (ids.flatMap fun id => g.preorderFrom way id) = (handles i k).map g.document := by
  induction h generalizing way with
  | nil i => simp [handles_self]
  | @cons id d ids i j k hid hd hbelow hlater ih₁ ih₂ =>
    have hij := hbelow.le
    have hjk := hlater.le
    subst hid
    rw [List.flatMap_cons, preorderFrom_of_getElem? hd (not_mem_way hw),
      ih₁ (forall_mem_cons_way hw), ih₂ fun w hm => Nat.lt_of_lt_of_le (hw w hm) (by omega),
      handles_cons (show id.index < k by omega), ← handles_append hij hjk, Handle.ofIndex_index,
      List.map_cons, List.map_append, document_of_getElem? hd, List.cons_append]

/-- A walk that takes documents after their imports meets the documents of the row, each once. -/
theorem postorderFrom_of_spans {g : Graph} {ids : List DocumentId} {i k : Nat}
    (h : g.Spans ids i k) {way : List DocumentId} (hw : ∀ w ∈ way, w.index < i) :
    ∃ out, (ids.flatMap fun id => g.postorderFrom way id) = out.map .ok ∧
      g.Postorder ids out ∧ out.Perm (handles i k) := by
  induction h generalizing way with
  | nil i => exact ⟨[], rfl, .nil, by rw [handles_self]⟩
  | @cons id d ids i j k hid hd hbelow hlater ih₁ ih₂ =>
    have hij := hbelow.le
    have hjk := hlater.le
    subst hid
    obtain ⟨below, hb, pb, qb⟩ := ih₁ (forall_mem_cons_way hw)
    obtain ⟨later, hl, pl, ql⟩ := ih₂ fun w hm => Nat.lt_of_lt_of_le (hw w hm) (by omega)
    refine ⟨below ++ id :: later, ?_, .cons (document_of_getElem? hd) pb pl, ?_⟩
    · rw [List.flatMap_cons, postorderFrom_of_getElem? hd (not_mem_way hw), hb, hl]
      simp
    · rw [handles_cons (by omega), ← handles_append hij hjk, Handle.ofIndex_index]
      exact List.perm_middle.trans ((qb.append ql).cons id)

theorem collect_map_ok {α : Type} (as : List α) : collect (as.map .ok) = .ok as := by
  induction as with
  | nil => rfl
  | cons a later ih =>
    simp only [List.map_cons, collect, ih]
    rfl

theorem collect_eq_ok_iff {α : Type} {steps : List (Except Dangling α)} {as : List α} :
    collect steps = .ok as ↔ steps = as.map .ok := by
  refine ⟨fun h => ?_, fun h => h ▸ collect_map_ok as⟩
  induction steps generalizing as with
  | nil =>
    cases h
    rfl
  | cons step later ih =>
    cases step with
    | error dangling => cases h
    | ok a =>
      obtain ⟨more, hlater, rfl⟩ := exists_of_map_ok h
      rw [ih hlater, List.map_cons]

theorem postorder_of_spans {g : Graph} {id : DocumentId} {i k : Nat} (h : g.Spans [id] i k) :
    ∃ out, g.postorder id = .ok out ∧ g.Postorder [id] out ∧ out.Perm (handles i k) := by
  obtain ⟨out, ho, hp, hq⟩ := @postorderFrom_of_spans g [id] i k h [] (by simp)
  refine ⟨out, ?_, hp, hq⟩
  rw [List.flatMap_singleton] at ho
  rw [postorder, ho, collect_map_ok]

/-! ## Looking up along a row -/

/-- What a kind and a name stand for among the globals of one document. -/
def ownGlobal? (g : Graph) (kind : Kind) (name : String) (id : DocumentId) : Option DeclarationId :=
  g.documents[id.index]?.bind (·.globals.get? kind name)

theorem firstKnown_map_document {g : Graph} {kind : Kind} {name : String} {ids : List DocumentId}
    (h : ∀ id ∈ ids, ∃ d, g.documents[id.index]? = some d) :
    firstKnown kind name (ids.map g.document) = .ok (ids.findSome? (g.ownGlobal? kind name)) := by
  induction ids with
  | nil => rfl
  | cons id later ih =>
    obtain ⟨d, hd⟩ := h id (by simp)
    have hown : g.ownGlobal? kind name id = d.globals.get? kind name := by
      simp [ownGlobal?, hd]
    rw [List.map_cons, document_of_getElem? hd, firstKnown, List.findSome?_cons, hown]
    cases d.globals.get? kind name with
    | some found => rfl
    | none => exact ih fun id hm => h id (List.mem_cons_of_mem _ hm)

/-- A lookup never fails along a row, and the first document of the row that knows the name
    decides. -/
theorem lookup_of_spans {g : Graph} {id : DocumentId} {i k : Nat} (h : g.Spans [id] i k)
    (kind : Kind) (name : String) :
    g.lookup id kind name = .ok ((handles i k).findSome? (g.ownGlobal? kind name)) := by
  have hw := @preorderFrom_of_spans g [id] i k h [] (by simp)
  rw [List.flatMap_singleton] at hw
  rw [lookup, Graph.preorder, hw, firstKnown_map_document]
  intro e he
  obtain ⟨n, hn, rfl⟩ := List.mem_map.1 he
  obtain ⟨h₁, h₂⟩ := List.mem_range'_1.1 hn
  rw [h.index_ofIndex h₁ (by omega)]
  exact h.exists_document h₁ (by omega)

end SchemaFamily.Graph
