import SchemaFamily.Proofs.Family.Numbering

/-
  What a name stands for. From a document a kind and a name denote the first global declaration of
  that kind and name in the first document, taken before its imports, that has one (`Denotes`). The
  documents of a family are `InOrder`, and there looking up a name finds what it denotes
  (`InOrder.lookup_eq`, `InOrder.denotation?_eq_some_iff`), which has the same handle in every graph
  with the same outline and imports (`InOrder.lookup_congr`).
-/

namespace SchemaFamily.Graph

/-- The graph is arranged, and its documents stand in a row, depth first, from its first. -/
structure InOrder (g : Graph) : Prop where
  arranged : g.Arranged
  spans : g.Spans [.ofIndex 0] 0 g.documents.size

theorem inOrder_ofTree {tree : ImportTree} (ha : (ofTree tree).Addressable) :
    (ofTree tree).InOrder := ⟨arranged_ofTree ha, spans_ofTree ha⟩

/-- The documents of the graphs have the same imports. -/
def SameImports (g g' : Graph) : Prop :=
  g.documents.map (·.imported) = g'.documents.map (·.imported)

theorem SameImports.getElem? {g g' : Graph} (h : g.SameImports g') (i : Nat) :
    g'.documents[i]?.map (·.imported) = g.documents[i]?.map (·.imported) := by
  have := congrArg (·[i]?) h
  simpa only [Array.getElem?_map] using this.symm

theorem SameCore.sameImports {g g' : Graph} (h : g.SameCore g') : g.SameImports g' := by
  have himported : Document.imported = Document.imported ∘ Document.core := rfl
  rw [SameImports, himported, ← Array.map_map, h.documents, Array.map_map]

theorem InOrder.congr {g g' : Graph} (h : g.InOrder) (ho : g.SameOutline g')
    (hi : g.SameImports g') : g'.InOrder := by
  refine ⟨h.arranged.congr ho, ?_⟩
  rw [← ho.size_documents]
  exact h.spans.congr fun e _ _ => hi.getElem? e

theorem SameImports.exists_document {g g' : Graph} (h : g.SameImports g') {id : DocumentId}
    {d : Document} (hd : g.document id = .ok d) :
    ∃ d', g'.document id = .ok d' ∧ d'.imported = d.imported := by
  have himported := h.getElem? id.index
  rw [getElem?_of_document hd, Option.map_some, Option.map_eq_some_iff] at himported
  obtain ⟨d', hd', he⟩ := himported
  exact ⟨d', document_of_getElem? hd', he⟩

theorem Preorder.unique {g : Graph} {ids out out' : List DocumentId} (h : g.Preorder ids out)
    (h' : g.Preorder ids out') : out = out' := by
  induction h generalizing out' with
  | nil =>
    cases h'
    rfl
  | cons found _ _ ihbelow ihlater =>
    cases h' with
    | cons found' imports' others' =>
      rw [found] at found'
      cases found'
      rw [ihbelow imports', ihlater others']

theorem Postorder.unique {g : Graph} {ids out out' : List DocumentId} (h : g.Postorder ids out)
    (h' : g.Postorder ids out') : out = out' := by
  induction h generalizing out' with
  | nil =>
    cases h'
    rfl
  | cons found _ _ ihbelow ihlater =>
    cases h' with
    | cons found' imports' others' =>
      rw [found] at found'
      cases found'
      rw [ihbelow imports', ihlater others']

theorem Preorder.congr {g g' : Graph} {ids out : List DocumentId} (h : g.Preorder ids out)
    (hi : g.SameImports g') : g'.Preorder ids out := by
  induction h with
  | nil => exact .nil
  | @cons id d ids below later found _ _ ihbelow ihlater =>
    obtain ⟨d', hd', he⟩ := hi.exists_document found
    rw [← he] at ihbelow
    exact .cons hd' ihbelow ihlater

theorem Postorder.congr {g g' : Graph} {ids out : List DocumentId} (h : g.Postorder ids out)
    (hi : g.SameImports g') : g'.Postorder ids out := by
  induction h with
  | nil => exact .nil
  | @cons id d ids below later found _ _ ihbelow ihlater =>
    obtain ⟨d', hd', he⟩ := hi.exists_document found
    rw [← he] at ihbelow
    exact .cons hd' ihbelow ihlater

theorem findSome?_congr {α β : Type} {f f' : α → Option β} {as : List α}
    (h : ∀ a ∈ as, f a = f' a) : as.findSome? f = as.findSome? f' := by
  induction as with
  | nil => rfl
  | cons a later ih =>
    rw [List.findSome?_cons, List.findSome?_cons, h a List.mem_cons_self,
      ih fun a' ha => h a' (List.mem_cons_of_mem _ ha)]

/-- From `document`, a kind and a name stand for `t`: documents are taken before their imports,
    and the first that has a global declaration of that kind and name decides. -/
def Denotes (g : Graph) (document : DocumentId) (kind : Kind) (name : String) (t : Declaration) :
    Prop :=
  ∃ ids, g.Preorder [document] ids ∧ ids.findSome? (g.firstGlobal? kind name) = some t

/-- What a kind and a name are found to stand for in a document. -/
def denotation? (g : Graph) (document : DocumentId) (kind : Kind) (name : String) :
    Option Declaration :=
  match g.lookup document kind name with
  | .ok (some id) => g.declarations[id.index]?
  | _ => none

theorem mem_of_firstGlobal? {g : Graph} {kind : Kind} {name : String} {document : DocumentId}
    {t : Declaration} (h : g.firstGlobal? kind name document = some t) :
    t ∈ g.declarations ∧ t.isGlobal kind name = true := by
  have hm := List.mem_of_find?_eq_some h
  exact ⟨Array.mem_toList_iff.1 (List.mem_filter.1 hm).1, List.find?_some h⟩

/-- A name denotes declarations of the same outline in graphs with the same outline and imports. -/
theorem Denotes.congr {g g' : Graph} {document : DocumentId} {kind : Kind} {name : String}
    {t : Declaration} (h : g.Denotes document kind name t) (ho : g.SameOutline g')
    (hi : g.SameImports g') :
    ∃ t', g'.Denotes document kind name t' ∧ t'.outline = t.outline := by
  obtain ⟨ids, hp, hf⟩ := h
  have hsame : (ids.findSome? (g'.firstGlobal? kind name)).map Declaration.outline =
      (ids.findSome? (g.firstGlobal? kind name)).map Declaration.outline := by
    rw [List.map_findSome?, List.map_findSome?]
    exact findSome?_congr fun id _ => (ho.firstGlobal? kind name id).symm
  rw [hf, Option.map_some, Option.map_eq_some_iff] at hsame
  obtain ⟨t', ht', he⟩ := hsame
  exact ⟨t', ⟨ids, hp.congr hi, ht'⟩, he⟩

theorem Denotes.mem {g : Graph} {document : DocumentId} {kind : Kind} {name : String}
    {t : Declaration} (h : g.Denotes document kind name t) :
    t ∈ g.declarations ∧ t.isGlobal kind name = true := by
  obtain ⟨ids, _, hf⟩ := h
  obtain ⟨id, _, hid⟩ := List.exists_of_findSome?_eq_some hf
  exact mem_of_firstGlobal? hid

/-- What a name denotes belongs to a document that the using one reaches. -/
theorem Denotes.exists_owner {g : Graph} {document : DocumentId} {kind : Kind} {name : String}
    {t : Declaration} (h : g.Denotes document kind name t) :
    ∃ reached, g.Preorder [document] reached ∧ t.owner ∈ reached := by
  obtain ⟨reached, hr, hf⟩ := h
  obtain ⟨id, hid, ht⟩ := List.exists_of_findSome?_eq_some hf
  have howned := (List.mem_filter.1 (List.mem_of_find?_eq_some ht)).2
  rw [beq_iff_eq] at howned
  exact ⟨reached, hr, howned ▸ hid⟩

namespace InOrder

variable {g g' : Graph} {document : DocumentId}

theorem exists_preorder (h : g.InOrder) (hd : document.index < g.documents.size) (kind : Kind)
    (name : String) :
    ∃ ids, g.Preorder [document] ids ∧
      g.lookup document kind name =
        .ok ((ids.findSome? (g.firstGlobal? kind name)).map (·.id)) := by
  obtain ⟨l, hl, hs⟩ := h.spans.of_mem (Nat.zero_le _) hd
  rw [Handle.ofIndex_index] at hs
  refine ⟨_, hs.preorder, ?_⟩
  rw [lookup_of_spans hs, List.map_findSome?]
  refine congrArg Except.ok ?_
  -- along the row the globals of a document are its first global declarations
  refine findSome?_congr fun id hid => ?_
  obtain ⟨n, hn, rfl⟩ := List.mem_map.1 hid
  obtain ⟨h₁, h₂⟩ := List.mem_range'_1.1 hn
  obtain ⟨d, hdoc⟩ := hs.exists_document h₁ (by omega)
  have hindex := hs.index_ofIndex h₁ (show n < l by omega)
  have hid : d.id = .ofIndex n := by
    rw [← h.arranged.document_index hdoc, Handle.ofIndex_index]
  rw [ownGlobal?, hindex, hdoc, Option.bind_some, h.arranged.globals_eq hdoc, hid]
  rfl

theorem lookup_eq (h : g.InOrder) (hd : document.index < g.documents.size) (kind : Kind)
    (name : String) :
    g.lookup document kind name = .ok ((g.denotation? document kind name).map (·.id)) := by
  obtain ⟨ids, _, hl⟩ := h.exists_preorder hd kind name
  rw [denotation?, hl]
  cases hf : ids.findSome? (g.firstGlobal? kind name) with
  | none => rfl
  | some t =>
    obtain ⟨id, _, hid⟩ := List.exists_of_findSome?_eq_some hf
    dsimp only [Option.map_some]
    rw [h.arranged.getElem?_id (mem_of_firstGlobal? hid).1, Option.map_some]

/-- Looking up finds what a name denotes. -/
theorem denotation?_eq_some_iff (h : g.InOrder) (hd : document.index < g.documents.size)
    {kind : Kind} {name : String} {t : Declaration} :
    g.denotation? document kind name = some t ↔ g.Denotes document kind name t := by
  obtain ⟨ids, hp, hl⟩ := h.exists_preorder hd kind name
  have hden : g.denotation? document kind name = ids.findSome? (g.firstGlobal? kind name) := by
    rw [denotation?, hl]
    cases hf : ids.findSome? (g.firstGlobal? kind name) with
    | none => rfl
    | some t =>
      obtain ⟨id, _, hid⟩ := List.exists_of_findSome?_eq_some hf
      exact h.arranged.getElem?_id (mem_of_firstGlobal? hid).1
  rw [hden]
  constructor
  · intro ht
    exact ⟨ids, hp, ht⟩
  · rintro ⟨ids', hp', ht⟩
    rw [hp.unique hp']
    exact ht

/-- What a name denotes depends on outlines and imports alone. -/
theorem lookup_congr (h : g.InOrder) (ho : g.SameOutline g') (hi : g.SameImports g')
    (hd : document.index < g.documents.size) (kind : Kind) (name : String) :
    g'.lookup document kind name = g.lookup document kind name := by
  obtain ⟨ids, hp, hl⟩ := h.exists_preorder hd kind name
  rw [ho.size_documents] at hd
  obtain ⟨ids', hp', hl'⟩ := (h.congr ho hi).exists_preorder hd kind name
  rw [hl, hl', (hp.congr hi).unique hp', List.map_findSome?, List.map_findSome?]
  refine congrArg Except.ok (findSome?_congr fun id _ => ?_)
  exact (ho.firstGlobal?_id kind name id).symm

end InOrder

end SchemaFamily.Graph
