import Mathlib.Data.List.Nodup
import SchemaFamily.Proofs.Family.Layout

/-
  Trees inside trees. A tree `Stands` in another at the end of a walk over import positions, after
  some documents and some definitions. What the whole adds to a graph contains in one piece what
  the part adds there (`Stands.documents_eq`, `Stands.declarations_eq`), and nothing around this
  piece is owned by a document of the part. Every document of a tree is the root of a part
  (`exists_stands`): the walks to them, in the order of the documents, are `ImportTree.walks`.
-/

namespace SchemaFamily

namespace ImportTree

/-! ## Walks -/

mutual

/-- The walks from the root of a tree: no step, and the walks into what the root imports. -/
def walks : ImportTree → List (List Nat)
  | .node _ imports => [] :: walksFrom 0 imports

/-- The walks into some trees, of which the first is import number `k`. -/
def walksFrom (k : Nat) : List ImportTree → List (List Nat)
  | [] => []
  | tree :: later => tree.walks.map (k :: ·) ++ walksFrom (k + 1) later

end

mutual

theorem length_walks : ∀ tree : ImportTree, tree.walks.length = tree.drafts.length
  | .node draft imports => by
    rw [walks, drafts, List.length_cons, List.length_cons, length_walksFrom]

theorem length_walksFrom : ∀ (trees : List ImportTree) (k : Nat),
    (walksFrom k trees).length = (draftsOf trees).length
  | [], k => rfl
  | tree :: later, k => by
    rw [walksFrom, draftsOf, List.length_append, List.length_append, List.length_map, length_walks,
      length_walksFrom]

end

theorem walksFrom_append (k : Nat) (trees later : List ImportTree) :
    walksFrom k (trees ++ later) = walksFrom k trees ++ walksFrom (k + trees.length) later := by
  induction trees generalizing k with
  | nil => rfl
  | cons tree more ih =>
    rw [List.cons_append, walksFrom, ih, walksFrom, List.append_assoc, List.length_cons,
      Nat.add_assoc, Nat.add_comm 1]

theorem mem_walksFrom {walk : List Nat} {k : Nat} {trees : List ImportTree} :
    walk ∈ walksFrom k trees ↔
      ∃ j tree rest, trees[j]? = some tree ∧ rest ∈ tree.walks ∧ walk = (k + j) :: rest := by
  induction trees generalizing k with
  | nil => simp [walksFrom]
  | cons tree later ih =>
    rw [walksFrom, List.mem_append, List.mem_map, ih]
    constructor
    · rintro (⟨rest, hrest, rfl⟩ | ⟨j, tree', rest, ht, hrest, rfl⟩)
      · exact ⟨0, tree, rest, rfl, hrest, rfl⟩
      · exact ⟨j + 1, tree', rest, ht, hrest, by rw [Nat.add_assoc, Nat.add_comm 1]⟩
    · rintro ⟨j, tree', rest, ht, hrest, rfl⟩
      cases j with
      | zero =>
        cases ht
        exact .inl ⟨rest, hrest, rfl⟩
      | succ j => exact .inr ⟨j, tree', rest, ht, hrest, by rw [Nat.add_assoc, Nat.add_comm 1]⟩

theorem nil_mem_walks (tree : ImportTree) : [] ∈ tree.walks := by
  cases tree
  exact List.mem_cons_self

theorem cons_mem_walks {k : Nat} {rest : List Nat} {tree : ImportTree} :
    k :: rest ∈ tree.walks ↔ ∃ below, tree.imports[k]? = some below ∧ rest ∈ below.walks := by
  cases tree with
  | node draft trees =>
    rw [walks, List.mem_cons, mem_walksFrom, imports]
    constructor
    · rintro (h | ⟨j, tree, rest', ht, hrest, h⟩)
      · cases h
      · rw [Nat.zero_add] at h
        cases h
        exact ⟨tree, ht, hrest⟩
    · rintro ⟨tree, ht, hrest⟩
      exact .inr ⟨k, tree, rest, ht, hrest, by rw [Nat.zero_add]⟩

mutual

/-- Walks are listed in lexicographic order, that is, depth first: a walk before its
    continuations, and imports in order. -/
theorem pairwise_walks : ∀ tree : ImportTree, tree.walks.Pairwise (· < ·)
  | .node draft imports => by
    rw [walks, List.pairwise_cons]
    refine ⟨fun walk hw => ?_, pairwise_walksFrom imports 0⟩
    obtain ⟨_, _, _, _, _, rfl⟩ := mem_walksFrom.1 hw
    exact List.nil_lt_cons _ _

theorem pairwise_walksFrom : ∀ (trees : List ImportTree) (k : Nat),
    (walksFrom k trees).Pairwise (· < ·)
  | [], k => .nil
  | tree :: later, k => by
    rw [walksFrom, List.pairwise_append]
    refine ⟨?_, pairwise_walksFrom later (k + 1), ?_⟩
    · rw [List.pairwise_map]
      exact (pairwise_walks tree).imp fun h => List.cons_lt_cons_iff.2 (.inr ⟨rfl, h⟩)
    · intro walk hw walk' hw'
      obtain ⟨rest, _, rfl⟩ := List.mem_map.1 hw
      obtain ⟨j, _, rest', _, _, rfl⟩ := mem_walksFrom.1 hw'
      exact List.cons_lt_cons_iff.2 (.inl (by omega))

end

theorem nodup_walks (tree : ImportTree) : tree.walks.Nodup := (pairwise_walks tree).nodup

/-! ## Owners -/

mutual

/-- The declarations of a tree are owned by its documents. -/
theorem owner_of_mem_declarations : ∀ (tree : ImportTree) (i first : Nat),
    ∀ d ∈ tree.declarations i first,
      ∃ j, i ≤ j ∧ j < i + tree.drafts.length ∧ d.owner = .ofIndex j
  | .node draft imports, i, first => by
    intro d h
    rw [declarations, List.mem_append] at h
    rw [drafts, List.length_cons]
    rcases h with h | h
    · exact ⟨i, Nat.le_refl _, by omega, Graph.owner_of_mem_placed h⟩
    · obtain ⟨j, hj, hj', howner⟩ := owner_of_mem_declarationsOf imports _ _ d h
      exact ⟨j, by omega, by omega, howner⟩

theorem owner_of_mem_declarationsOf : ∀ (trees : List ImportTree) (i first : Nat),
    ∀ d ∈ declarationsOf i first trees,
      ∃ j, i ≤ j ∧ j < i + (draftsOf trees).length ∧ d.owner = .ofIndex j
  | [], i, first => by
    intro d h
    cases h
  | tree :: later, i, first => by
    intro d h
    rw [declarationsOf, List.mem_append] at h
    rw [draftsOf, List.length_append]
    rcases h with h | h
    · obtain ⟨j, hj, hj', howner⟩ := owner_of_mem_declarations tree _ _ d h
      exact ⟨j, by omega, by omega, howner⟩
    · obtain ⟨j, hj, hj', howner⟩ := owner_of_mem_declarationsOf later _ _ d h
      exact ⟨j, by omega, by omega, howner⟩

end

/-! ## Parts -/

/-- The part stands in the tree at the end of a walk, after `i` documents and `first`
    definitions. -/
inductive Stands : ImportTree → (walk : List Nat) → (i first : Nat) → (part : ImportTree) → Prop
  | here (tree : ImportTree) : Stands tree [] 0 0 tree
  | inside {draft : Draft} {before after : List ImportTree} {tree part : ImportTree}
      {walk : List Nat} {i first : Nat} (below : Stands tree walk i first part) :
      Stands (.node draft (before ++ tree :: after)) (before.length :: walk)
        (1 + (draftsOf before).length + i)
        (draft.definitions.length + definitionCount (draftsOf before) + first) part

theorem Stands.of_getElem? {k : Nat} {draft : Draft} {trees : List ImportTree}
    {tree part : ImportTree} {walk : List Nat} {i first : Nat} (h : trees[k]? = some tree)
    (below : Stands tree walk i first part) :
    Stands (.node draft trees) (k :: walk) (1 + (draftsOf (trees.take k)).length + i)
      (draft.definitions.length + definitionCount (draftsOf (trees.take k)) + first) part := by
  obtain ⟨hk, rfl⟩ := List.getElem?_eq_some_iff.1 h
  have hsplit : trees.take k ++ trees[k] :: trees.drop (k + 1) = trees := by
    rw [← List.drop_eq_getElem_cons hk, List.take_append_drop]
  have hlength : (trees.take k).length = k := List.length_take_of_le (Nat.le_of_lt hk)
  have hinside : Stands (.node draft (trees.take k ++ trees[k] :: trees.drop (k + 1)))
      ((trees.take k).length :: walk) _ _ part := .inside below
  rwa [hsplit, hlength] at hinside

/-- What the root imports is a part. -/
theorem exists_stands_of_import {k : Nat} {tree below : ImportTree}
    (h : tree.imports[k]? = some below) :
    ∃ first, Stands tree [k] (1 + (draftsOf (tree.imports.take k)).length) first below := by
  cases tree
  exact ⟨_, .of_getElem? h (.here below)⟩

/-- There is a part at the end of every walk. -/
theorem exists_stands_of_mem {walk : List Nat} {tree : ImportTree} (h : walk ∈ tree.walks) :
    ∃ i first part, Stands tree walk i first part := by
  induction walk generalizing tree with
  | nil => exact ⟨0, 0, tree, .here tree⟩
  | cons k rest ih =>
    cases tree with
    | node draft trees =>
      obtain ⟨tree, ht, hrest⟩ := cons_mem_walks.1 h
      obtain ⟨i, first, part, hs⟩ := ih hrest
      exact ⟨_, _, part, .of_getElem? ht hs⟩

namespace Stands

variable {tree part : ImportTree} {walk : List Nat} {i first : Nat}

theorem walks_eq (h : Stands tree walk i first part) :
    ∃ before after, tree.walks = before ++ part.walks.map (walk ++ ·) ++ after ∧
      before.length = i := by
  induction h with
  | here tree => exact ⟨[], [], by simp, rfl⟩
  | @inside draft before after tree part walk i first _ ih =>
    obtain ⟨front, rest, hwalks, hlength⟩ := ih
    refine ⟨[] :: (walksFrom 0 before ++ front.map (before.length :: ·)),
      rest.map (before.length :: ·) ++ walksFrom (before.length + 1) after, ?_, ?_⟩
    · rw [walks, walksFrom_append, Nat.zero_add, walksFrom, hwalks]
      simp [Function.comp_def]
    · simp only [List.length_cons, List.length_append, List.length_map, length_walksFrom, hlength]
      omega

/-- The walk to a part has the place of the part's root. -/
theorem getElem?_walks (h : Stands tree walk i first part) : tree.walks[i]? = some walk := by
  obtain ⟨before, after, hwalks, rfl⟩ := h.walks_eq
  cases part
  rw [hwalks, walks]
  simp

theorem index_eq (h : Stands tree walk i first part) {j : Nat} (hj : tree.walks[j]? = some walk) :
    j = i :=
  (List.getElem?_inj (List.getElem?_eq_some_iff.1 hj).1 (nodup_walks tree)).1
    (hj.trans h.getElem?_walks.symm)

theorem length_le (h : Stands tree walk i first part) :
    i + part.drafts.length ≤ tree.drafts.length := by
  obtain ⟨before, after, hwalks, rfl⟩ := h.walks_eq
  rw [← length_walks, ← length_walks, hwalks]
  simp

/-- What the whole adds has in it what the part adds. -/
theorem documents_eq (h : Stands tree walk i first part) (n m : Nat) :
    ∃ before after, tree.documents n m = before ++ part.documents (n + i) (m + first) ++ after ∧
      before.length = i := by
  induction h generalizing n m with
  | here tree => exact ⟨[], [], by simp, rfl⟩
  | @inside draft before after tree part walk i first _ ih =>
    obtain ⟨front, rest, hdocuments, hlength⟩ := ih (n + 1 + (draftsOf before).length)
      (m + draft.definitions.length + definitionCount (draftsOf before))
    obtain ⟨root, hroot⟩ : ∃ root, documents n m (.node draft (before ++ tree :: after)) =
        root :: documentsOf (n + 1) (m + draft.definitions.length) (before ++ tree :: after) :=
      ⟨_, rfl⟩
    refine ⟨root :: (documentsOf (n + 1) (m + draft.definitions.length) before ++ front),
      rest ++ documentsOf (n + 1 + (draftsOf before).length + tree.drafts.length)
        (m + draft.definitions.length + definitionCount (draftsOf before) +
          definitionCount tree.drafts) after, ?_, ?_⟩
    · rw [hroot, documentsOf_append, documentsOf, hdocuments]
      simp only [List.cons_append, List.append_assoc, Nat.add_assoc]
    · simp only [List.length_cons, List.length_append, length_documentsOf, hlength]
      omega

/-- What the whole adds has in it the declarations of the part; those before are owned by earlier
    documents and those after by later ones. -/
theorem declarations_eq (h : Stands tree walk i first part) (n m : Nat) :
    ∃ before after, tree.declarations n m =
        before ++ part.declarations (n + i) (m + first) ++ after ∧ before.length = first ∧
      (∀ d ∈ before, ∃ j < n + i, d.owner = .ofIndex j) ∧
      ∀ d ∈ after, ∃ j, n + i + part.drafts.length ≤ j ∧ j < n + tree.drafts.length ∧
        d.owner = .ofIndex j := by
  induction h generalizing n m with
  | here tree => exact ⟨[], [], by simp, rfl, by simp, by simp⟩
  | @inside draft before after tree part walk i first below ih =>
    obtain ⟨front, rest, hdeclarations, hlength, hfront, hrest⟩ :=
      ih (n + 1 + (draftsOf before).length)
        (m + draft.definitions.length + definitionCount (draftsOf before))
    have hsize : (drafts (.node draft (before ++ tree :: after))).length =
        1 + ((draftsOf before).length + (tree.drafts.length + (draftsOf after).length)) := by
      rw [drafts, List.length_cons, length_draftsOf_append, draftsOf, List.length_append]
      omega
    refine ⟨Graph.placed (.ofIndex n) m draft.definitions ++
        (declarationsOf (n + 1) (m + draft.definitions.length) before ++ front),
      rest ++ declarationsOf (n + 1 + (draftsOf before).length + tree.drafts.length)
        (m + draft.definitions.length + definitionCount (draftsOf before) +
          definitionCount tree.drafts) after, ?_, ?_, fun d hd => ?_, fun d hd => ?_⟩
    · rw [declarations, declarationsOf_append, declarationsOf, hdeclarations]
      simp only [List.append_assoc, Nat.add_assoc]
    · simp only [List.length_append, Graph.length_placed, length_declarationsOf, hlength]
      omega
    · rw [List.mem_append, List.mem_append] at hd
      rcases hd with hd | hd | hd
      · exact ⟨n, by omega, Graph.owner_of_mem_placed hd⟩
      · obtain ⟨j, _, hj, howner⟩ := owner_of_mem_declarationsOf _ _ _ d hd
        exact ⟨j, by omega, howner⟩
      · obtain ⟨j, hj, howner⟩ := hfront d hd
        exact ⟨j, by omega, howner⟩
    · rw [List.mem_append] at hd
      rcases hd with hd | hd
      · obtain ⟨j, hj, hj', howner⟩ := hrest d hd
        exact ⟨j, by omega, by omega, howner⟩
      · obtain ⟨j, hj, hj', howner⟩ := owner_of_mem_declarationsOf _ _ _ d hd
        have := below.length_le
        exact ⟨j, by omega, by omega, howner⟩

/-- A part of a part is a part. -/
theorem trans {below : ImportTree} {walk' : List Nat} {i' first' : Nat}
    (h : Stands tree walk i first part) (h' : Stands part walk' i' first' below) :
    Stands tree (walk ++ walk') (i + i') (first + first') below := by
  induction h with
  | here tree => rwa [List.nil_append, Nat.zero_add, Nat.zero_add]
  | inside _ ih =>
    rw [Nat.add_assoc, Nat.add_assoc _ _ first']
    exact .inside (ih h')

end Stands

/-- Every document of a tree is the root of a part. -/
theorem exists_stands {tree : ImportTree} {i : Nat} (h : i < tree.drafts.length) :
    ∃ walk first part, tree.walks[i]? = some walk ∧ Stands tree walk i first part := by
  rw [← length_walks] at h
  obtain ⟨j, first, part, hs⟩ := exists_stands_of_mem (List.getElem_mem h)
  have hi := List.getElem?_eq_getElem h
  exact ⟨_, first, part, hi, hs.index_eq hi ▸ hs⟩

end ImportTree

/-! ## Parts of a family -/

namespace Graph

open ImportTree

/-- Number of the declarations that documents before number `i` own. -/
def declarationsBefore (g : Graph) (i : Nat) : Nat :=
  g.declarations.toList.countP (·.owner.index < i)

section

variable {tree part : ImportTree} {walk : List Nat} {i first : Nat}
  (ha : (ofTree tree).Addressable) (h : Stands tree walk i first part)

include ha

theorem size_documents_ofTree : (ofTree tree).documents.size = tree.drafts.length := by
  rw [← Array.length_toList, documents_ofTree ha, length_documents]

include h

theorem getElem?_documents_of_stands {j : Nat} (hj : j < part.drafts.length) :
    (ofTree tree).documents[i + j]? = (part.documents i first)[j]? := by
  obtain ⟨before, after, hdocuments, rfl⟩ := h.documents_eq 0 0
  rw [Nat.zero_add, Nat.zero_add] at hdocuments
  rw [← Array.getElem?_toList, documents_ofTree ha, hdocuments, List.append_assoc,
    List.getElem?_append_right (Nat.le_add_right _ _), Nat.add_sub_cancel_left,
    List.getElem?_append_left (by rwa [length_documents])]

/-- The document of a part's root. -/
theorem getElem?_document_of_stands :
    (ofTree tree).documents[i]? = some
      { part.draft.document (.ofIndex i) first with imported := roots (i + 1) part.imports } := by
  cases part
  exact getElem?_documents_of_stands ha h (j := 0) (Nat.succ_pos _)

theorem getElem?_declarations_of_stands {j : Nat} (hj : j < definitionCount part.drafts) :
    (ofTree tree).declarations[first + j]? = (part.declarations i first)[j]? := by
  obtain ⟨before, after, hdeclarations, rfl, _⟩ := h.declarations_eq 0 0
  rw [Nat.zero_add, Nat.zero_add] at hdeclarations
  rw [← Array.getElem?_toList, declarations_ofTree ha, hdeclarations, List.append_assoc,
    List.getElem?_append_right (Nat.le_add_right _ _), Nat.add_sub_cancel_left,
    List.getElem?_append_left (by rwa [length_declarations])]

/-- The declarations fall into those of documents before the part, of the part, and after it. -/
theorem exists_declarations_of_stands :
    ∃ before after, (ofTree tree).declarations.toList =
        before ++ part.declarations i first ++ after ∧ before.length = first ∧
      (∀ d ∈ before, d.owner.index < i) ∧
      (∀ d ∈ part.declarations i first, i ≤ d.owner.index ∧
        d.owner.index < i + part.drafts.length) ∧
      ∀ d ∈ after, i + part.drafts.length ≤ d.owner.index := by
  obtain ⟨before, after, hdeclarations, hlength, hbefore, hafter⟩ := h.declarations_eq 0 0
  rw [Nat.zero_add, Nat.zero_add] at hdeclarations
  have hmax : tree.drafts.length ≤ maxIndex + 1 := size_documents_ofTree ha ▸ ha.1
  have hle := h.length_le
  refine ⟨before, after, (declarations_ofTree ha).trans hdeclarations, hlength, fun d hd => ?_,
    fun d hd => ?_, fun d hd => ?_⟩
  · obtain ⟨j, hj, howner⟩ := hbefore d hd
    rw [howner, Handle.index_ofIndex_of_le (by omega)]
    omega
  · obtain ⟨j, hj, hj', howner⟩ := owner_of_mem_declarations part i first d hd
    rw [howner, Handle.index_ofIndex_of_le (by omega)]
    exact ⟨hj, hj'⟩
  · obtain ⟨j, hj, hj', howner⟩ := hafter d hd
    rw [howner, Handle.index_ofIndex_of_le (by omega)]
    omega

/-- A part comes after as many declarations as earlier documents own. -/
theorem declarationsBefore_of_stands : (ofTree tree).declarationsBefore i = first := by
  obtain ⟨before, after, hdeclarations, hlength, hbefore, hpart, hafter⟩ :=
    exists_declarations_of_stands ha h
  have hall : before.countP (·.owner.index < i) = before.length :=
    List.countP_eq_length.2 (by simpa using hbefore)
  have hnone : (part.declarations i first).countP (·.owner.index < i) = 0 :=
    List.countP_eq_zero.2 (by simpa using fun d hd => (hpart d hd).1)
  have hnone' : after.countP (·.owner.index < i) = 0 :=
    List.countP_eq_zero.2 (by simpa using fun d hd => Nat.le_of_add_right_le (hafter d hd))
  rw [declarationsBefore, hdeclarations, List.countP_append, List.countP_append, hall, hnone,
    hnone', hlength]
  rfl

/-- A document of the part owns a declaration exactly when it is among those of the part. -/
theorem owner_of_stands {j : Nat} {d : Declaration}
    (hd : (ofTree tree).declarations[j]? = some d) :
    (i ≤ d.owner.index ∧ d.owner.index < i + part.drafts.length) ↔
      (first ≤ j ∧ j < first + definitionCount part.drafts) := by
  obtain ⟨before, after, hdeclarations, rfl, hbefore, hpart, hafter⟩ :=
    exists_declarations_of_stands ha h
  have hlength := length_declarations part i before.length
  rw [← Array.getElem?_toList, hdeclarations, List.append_assoc, List.getElem?_append] at hd
  split at hd
  · have := hbefore d (List.mem_of_getElem? hd)
    omega
  · rw [List.getElem?_append] at hd
    split at hd
    · have := hpart d (List.mem_of_getElem? hd)
      omega
    · have := hafter d (List.mem_of_getElem? hd)
      omega

/-- The declarations of a part's root are the definitions of its draft. -/
theorem declarationsOf_of_stands :
    (ofTree tree).declarationsOf (.ofIndex i) =
      placed (.ofIndex i) first part.draft.definitions := by
  obtain ⟨before, after, hdeclarations, _, hbefore, hpart, hafter⟩ :=
    exists_declarations_of_stands ha h
  have hmax : tree.drafts.length ≤ maxIndex + 1 := size_documents_ofTree ha ▸ ha.1
  have hle := h.length_le
  cases part with
  | node draft imports =>
    rw [drafts, List.length_cons] at hle hafter
    have hi : (Handle.ofIndex i : DocumentId).index = i := Handle.index_ofIndex_of_le (by omega)
    have hothers : ∀ ds : List Declaration, (∀ d ∈ ds, d.owner.index ≠ i) →
        ds.filter (·.owner == .ofIndex i) = [] := by
      intro ds hds
      refine List.filter_eq_nil_iff.2 fun d hd he => hds d hd ?_
      rw [beq_iff_eq.1 he, hi]
    have howned : (placed (.ofIndex i) first draft.definitions).filter
        (·.owner == .ofIndex i) = placed (.ofIndex i) first draft.definitions :=
      List.filter_eq_self.2 fun d hd => beq_iff_eq.2 (owner_of_mem_placed hd)
    have hbelow : ∀ d ∈ ImportTree.declarationsOf (i + 1) (first + draft.definitions.length)
        imports, d.owner.index ≠ i := by
      intro d hd
      obtain ⟨j, hj, hj', howner⟩ := owner_of_mem_declarationsOf imports _ _ d hd
      rw [howner, Handle.index_ofIndex_of_le (by omega)]
      omega
    have hlater : ∀ d ∈ after, d.owner.index ≠ i := by
      intro d hd
      have := hafter d hd
      omega
    rw [declarationsOf, hdeclarations, ImportTree.declarations, List.filter_append,
      List.filter_append, List.filter_append, howned, hothers _ hbelow, hothers after hlater,
      hothers before fun d hd => Nat.ne_of_lt (hbefore d hd)]
    rw [List.nil_append, List.append_nil, List.append_nil]
    rfl

end

end Graph

end SchemaFamily
