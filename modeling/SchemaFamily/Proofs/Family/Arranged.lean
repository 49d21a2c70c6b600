import SchemaFamily.Family.Link
import SchemaFamily.Proofs.Family.Outline

/-
  Arranged graphs. A graph is `Arranged` when every handle is the place of what it numbers, every
  declaration is listed once by the document that owns it, and the globals of a document are its
  first declarations of each kind and name. Whether it is can be told from its outline
  (`Arranged.congr`), and adding a draft keeps a graph arranged as long as no handle is shared
  (`arranged_insert`).
-/

namespace SchemaFamily

namespace Graph

/-- Handles are places, owners list what they own once, and globals are first declarations. -/
structure Arranged (g : Graph) : Prop where
  document_index : ∀ {i : Nat} {d : Document}, g.documents[i]? = some d → d.id.index = i
  declaration_index : ∀ {i : Nat} {d : Declaration}, g.declarations[i]? = some d → d.id.index = i
  owner_lt : ∀ {d : Declaration}, d ∈ g.declarations → d.owner.index < g.documents.size
  owned_perm : ∀ {i : Nat} {d : Document}, g.documents[i]? = some d →
    d.owned.Perm ((g.declarationsOf d.id).map (·.id))
  globals_eq : ∀ {i : Nat} {d : Document}, g.documents[i]? = some d → ∀ kind name,
    d.globals.get? kind name = (g.firstGlobal? kind name d.id).map (·.id)

variable {g g' : Graph}

/-- Whether a graph is arranged can be told from its outline. -/
theorem Arranged.congr (ha : g.Arranged) (h : g.SameOutline g') : g'.Arranged := by
  refine ⟨?_, ?_, ?_, ?_, ?_⟩
  · intro i d hd
    obtain ⟨d', hd', ho⟩ := h.symm.exists_document hd
    rw [← Document.id_of_outline ho]
    exact ha.document_index hd'
  · intro i d hd
    obtain ⟨d', hd', ho⟩ := h.symm.exists_declaration hd
    rw [← Declaration.id_of_outline ho]
    exact ha.declaration_index hd'
  · intro d hd
    obtain ⟨i, hi⟩ := Array.getElem?_of_mem hd
    obtain ⟨d', hd', ho⟩ := h.symm.exists_declaration hi
    rw [← Declaration.owner_of_outline ho, ← h.size_documents]
    exact ha.owner_lt (Array.mem_of_getElem? hd')
  · intro i d hd
    obtain ⟨d', hd', ho⟩ := h.symm.exists_document hd
    have hids := congrArg (List.map (·.id)) (h.declarationsOf d.id)
    simp only [List.map_map] at hids
    rw [← Document.owned_of_outline ho]
    refine (ha.owned_perm hd').trans ?_
    rw [Document.id_of_outline ho]
    exact List.Perm.of_eq hids
  · intro i d hd kind name
    obtain ⟨d', hd', ho⟩ := h.symm.exists_document hd
    rw [← Document.globals_of_outline ho, ha.globals_eq hd' kind name, Document.id_of_outline ho]
    exact h.firstGlobal?_id kind name d.id

end Graph

/-! ## Adopting declarations -/

namespace Document

theorem owned_adopt (d : Document) (declaration : Declaration) :
    (d.adopt declaration).owned.Perm (d.owned ++ [declaration.id]) := by
  have hswap : ∀ (a b : List DeclarationId) (x : DeclarationId),
      (a ++ [x] ++ b).Perm (a ++ b ++ [x]) := by
    intro a b x
    rw [List.append_assoc, List.append_assoc]
    exact List.perm_append_comm.append_left a
  unfold adopt owned
  split
  · simp
  · dsimp only
    split
    · simpa using hswap d.assemblies (d.fields ++ d.flags ++ d.inline) declaration.id
    · simpa using hswap (d.assemblies ++ d.fields) (d.flags ++ d.inline) declaration.id
    · simpa using hswap (d.assemblies ++ d.fields ++ d.flags) d.inline declaration.id

theorem owned_foldl_adopt (d : Document) (declarations : List Declaration) :
    (declarations.foldl adopt d).owned.Perm (d.owned ++ declarations.map (·.id)) := by
  induction declarations generalizing d with
  | nil => simp
  | cons declaration later ih =>
    rw [List.foldl_cons, List.map_cons]
    refine (ih (d.adopt declaration)).trans ?_
    rw [List.append_cons d.owned]
    exact (owned_adopt d declaration).append_right _

theorem globals_adopt (d : Document) (declaration : Declaration) :
    (d.adopt declaration).globals =
      if declaration.scope = .everywhere then
        d.globals.register declaration.kind declaration.name declaration.id
      else d.globals := by
  unfold adopt
  cases hs : declaration.scope with
  | inline => rfl
  | everywhere =>
    rw [if_pos rfl]
    cases declaration.kind <;> rfl

/-- What a document knows after adopting declarations: what it knew before, else the first of them
    that is global and has the kind and the name. -/
theorem get?_foldl_adopt (d : Document) (declarations : List Declaration) (kind : Kind)
    (name : String) :
    (declarations.foldl adopt d).globals.get? kind name =
      (d.globals.get? kind name).or
        ((declarations.find? (·.isGlobal kind name)).map (·.id)) := by
  induction declarations generalizing d with
  | nil => simp
  | cons declaration later ih =>
    rw [List.foldl_cons, ih, globals_adopt]
    by_cases hs : declaration.scope = .everywhere
    · by_cases hkey : (kind, name) = (declaration.kind, declaration.name)
      · obtain ⟨rfl, rfl⟩ := Prod.mk.inj hkey
        rw [if_pos hs]
        cases hget : d.globals.get? declaration.kind declaration.name with
        | some id =>
          rw [Globals.register_of_contains (by simp [Globals.contains, hget]), hget]
          simp
        | none =>
          rw [Globals.get?_register_self (by simp [Globals.contains, hget]),
            List.find?_cons_of_pos (Declaration.isGlobal_iff.2 ⟨hs, rfl, rfl⟩)]
          simp
      · have hne : ¬ declaration.isGlobal kind name = true := by
          rw [Declaration.isGlobal_iff]
          rintro ⟨_, rfl, rfl⟩
          exact hkey rfl
        rw [if_pos hs, Globals.get?_register_of_ne hkey, List.find?_cons_of_neg hne]
    · rw [if_neg hs, List.find?_cons_of_neg fun h => hs (Declaration.isGlobal_iff.1 h).1]

/-- A document that adopts declarations is given them and their names, and nothing else. -/
theorem exists_foldl_adopt (d : Document) (declarations : List Declaration) :
    ∃ assemblies fields flags inline globals, declarations.foldl adopt d =
      { d with assemblies, fields, flags, inline, globals } := by
  induction declarations generalizing d with
  | nil => exact ⟨_, _, _, _, _, rfl⟩
  | cons declaration later ih =>
    obtain ⟨assemblies, fields, flags, inline, globals, h⟩ := ih (d.adopt declaration)
    refine ⟨assemblies, fields, flags, inline, globals, ?_⟩
    rw [List.foldl_cons, h]
    unfold adopt
    split
    · rfl
    · dsimp only
      split <;> rfl

theorem id_foldl_adopt (d : Document) (declarations : List Declaration) :
    (declarations.foldl adopt d).id = d.id := by
  obtain ⟨_, _, _, _, _, h⟩ := d.exists_foldl_adopt declarations
  rw [h]

end Document

namespace Graph

/-! ## One step -/

theorem length_placed (owner : DocumentId) (first : Nat) (definitions : List Drafted) :
    (placed owner first definitions).length = definitions.length := by
  simp [placed]

theorem owner_of_mem_placed {owner : DocumentId} {first : Nat} {definitions : List Drafted}
    {d : Declaration} (h : d ∈ placed owner first definitions) : d.owner = owner := by
  obtain ⟨⟨drafted, place⟩, _, rfl⟩ := List.mem_map.1 h
  rfl

theorem getElem?_placed (owner : DocumentId) (first : Nat) (definitions : List Drafted) (i : Nat) :
    (placed owner first definitions)[i]? = definitions[i]?.map fun drafted =>
      { id := .ofIndex (first + i), owner, scope := drafted.scope,
        definition := drafted.definition.rebase first } := by
  simp only [placed, List.getElem?_map, List.getElem?_zipIdx, Option.map_map]
  cases definitions[i]? <;> simp

/-- The document that a draft becomes. -/
def documentOf (g : Graph) (draft : Draft) : Document :=
  (placed (.ofIndex g.documents.size) g.declarations.size draft.definitions).foldl Document.adopt
    { id := .ofIndex g.documents.size, header := draft.header, imports := draft.imports }

theorem exists_documentOf (g : Graph) (draft : Draft) :
    ∃ assemblies fields flags inline globals, g.documentOf draft =
      { id := .ofIndex g.documents.size, header := draft.header, imports := draft.imports,
        assemblies, fields, flags, inline, globals } :=
  Document.exists_foldl_adopt _ _

theorem imported_documentOf (g : Graph) (draft : Draft) : (g.documentOf draft).imported = [] := by
  obtain ⟨_, _, _, _, _, h⟩ := g.exists_documentOf draft
  rw [h]

theorem documents_insert (g : Graph) (draft : Draft) :
    (g.insert draft).1.documents = g.documents.push (g.documentOf draft) := rfl

theorem declarations_insert (g : Graph) (draft : Draft) :
    (g.insert draft).1.declarations = g.declarations ++
      (placed (.ofIndex g.documents.size) g.declarations.size draft.definitions).toArray := rfl

theorem size_documents_insert (g : Graph) (draft : Draft) :
    (g.insert draft).1.documents.size = g.documents.size + 1 := by
  rw [documents_insert, Array.size_push]

theorem size_declarations_insert (g : Graph) (draft : Draft) :
    (g.insert draft).1.declarations.size = g.declarations.size + draft.definitions.length := by
  simp [declarations_insert, length_placed]

theorem declarationsOf_insert_self {g : Graph} (h : g.Arranged) {draft : Draft}
    (hn : g.documents.size ≤ maxIndex) :
    (g.insert draft).1.declarationsOf (.ofIndex g.documents.size) =
      placed (.ofIndex g.documents.size) g.declarations.size draft.definitions := by
  have hold : g.declarations.toList.filter
      (fun d => d.owner == .ofIndex g.documents.size) = [] := by
    rw [List.filter_eq_nil_iff]
    intro d hd
    have hlt := h.owner_lt (Array.mem_toList_iff.1 hd)
    simp only [beq_iff_eq]
    intro he
    rw [he, Handle.index_ofIndex_of_le hn] at hlt
    exact Nat.lt_irrefl _ hlt
  simp only [declarationsOf, declarations_insert, Array.toList_append, List.filter_append]
  rw [hold, List.nil_append, List.filter_eq_self]
  intro d hd
  simp [owner_of_mem_placed hd]

theorem declarationsOf_insert_of_lt {g : Graph} {draft : Draft} (hn : g.documents.size ≤ maxIndex)
    {id : DocumentId} (hid : id.index < g.documents.size) :
    (g.insert draft).1.declarationsOf id = g.declarationsOf id := by
  simp only [declarationsOf, declarations_insert, Array.toList_append, List.filter_append]
  rw [List.append_right_eq_self, List.filter_eq_nil_iff]
  intro d hd
  rw [owner_of_mem_placed hd]
  simp only [beq_iff_eq]
  intro he
  rw [← he, Handle.index_ofIndex_of_le hn] at hid
  exact Nat.lt_irrefl _ hid

/-- The documents are the old ones and the new one. -/
theorem Arranged.document_insert {g : Graph} (h : g.Arranged) {draft : Draft} {i : Nat}
    {d : Document} (hd : (g.insert draft).1.documents[i]? = some d) :
    (g.documents[i]? = some d ∧ d.id.index < g.documents.size ∧ d.id.index = i) ∨
      (i = g.documents.size ∧ d = g.documentOf draft) := by
  rw [documents_insert, Array.getElem?_push] at hd
  split at hd
  · next hi =>
    cases hd
    exact .inr ⟨hi, rfl⟩
  · have hi := h.document_index hd
    have hlt := (Array.getElem?_eq_some_iff.1 hd).1
    rw [← hi] at hlt
    exact .inl ⟨hd, hlt, hi⟩

theorem arranged_insert {g : Graph} (h : g.Arranged) {draft : Draft}
    (ha : (g.insert draft).1.Addressable) : (g.insert draft).1.Arranged := by
  obtain ⟨hdocs, hdecls⟩ := ha
  rw [size_documents_insert] at hdocs
  rw [size_declarations_insert] at hdecls
  have hn : g.documents.size ≤ maxIndex := by omega
  have hid : (g.documentOf draft).id = .ofIndex g.documents.size := Document.id_foldl_adopt _ _
  refine ⟨?_, ?_, ?_, ?_, ?_⟩
  · intro i d hd
    rcases h.document_insert hd with ⟨_, _, hi⟩ | ⟨rfl, rfl⟩
    · exact hi
    · rw [hid, Handle.index_ofIndex_of_le hn]
  · intro i d hd
    rw [declarations_insert, Array.getElem?_append] at hd
    split at hd
    · exact h.declaration_index hd
    · next hi =>
      rw [List.getElem?_toArray, getElem?_placed, Option.map_eq_some_iff] at hd
      obtain ⟨drafted, hdrafted, rfl⟩ := hd
      have hlt := (List.getElem?_eq_some_iff.1 hdrafted).1
      rw [Handle.index_ofIndex_of_le (by omega)]
      omega
  · intro d hd
    rw [size_documents_insert]
    rw [declarations_insert, Array.mem_append] at hd
    rcases hd with hd | hd
    · exact Nat.lt_succ_of_lt (h.owner_lt hd)
    · rw [owner_of_mem_placed (List.mem_toArray.1 hd), Handle.index_ofIndex_of_le hn]
      exact Nat.lt_succ_self _
  · intro i d hd
    rcases h.document_insert hd with ⟨hold, hlt, _⟩ | ⟨rfl, rfl⟩
    · rw [declarationsOf_insert_of_lt hn hlt]
      exact h.owned_perm hold
    · rw [hid, declarationsOf_insert_self h hn]
      exact Document.owned_foldl_adopt _ _
  · intro i d hd kind name
    rcases h.document_insert hd with ⟨hold, hlt, _⟩ | ⟨rfl, rfl⟩
    · rw [firstGlobal?, declarationsOf_insert_of_lt hn hlt]
      exact h.globals_eq hold kind name
    · rw [hid, firstGlobal?, declarationsOf_insert_self h hn, documentOf,
        Document.get?_foldl_adopt]
      rfl

theorem documents_attach (g : Graph) (parent child : DocumentId) (i : Nat) :
    (g.attach parent child).documents[i]? =
      if parent.index = i then
        g.documents[i]?.map fun d => { d with imported := d.imported ++ [child] }
      else g.documents[i]? := by
  rw [attach, Array.getElem?_modify]

theorem sameOutline_attach (g : Graph) (parent child : DocumentId) :
    g.SameOutline (g.attach parent child) := by
  have hdocuments := map_modify_of_same (p := Document.outline)
    (f := fun d => { d with imported := d.imported ++ [child] }) (fun _ => rfl) g.documents
    parent.index
  exact ⟨hdocuments.symm, rfl⟩

/-! ## What documents hold -/

end Graph

/-- Where a usage stands: in the file of the document, on its line if that is known, in the
    declaration that holds it. -/
def Document.siteOf (d : Document) (holder : String) (position : Position) : Site where
  path := d.header.source
  line := if 0 < position.line then some position.line else none
  document := d.header.name
  declaration := holder

theorem Document.site_eq (d : Document) : d.site = d.siteOf := rfl

namespace Graph

/-- The declarations that a document lists as its own, in that order. -/
def holdings (g : Graph) (document : DocumentId) : List Declaration :=
  match g.documents[document.index]? with
  | some d => (d.assemblies ++ d.fields ++ d.flags ++ d.inline).filterMap fun id =>
      g.declarations[id.index]?
  | none => []

theorem holdings_of_getElem? {g : Graph} {document : DocumentId} {d : Document}
    (hd : g.documents[document.index]? = some d) :
    g.holdings document = d.owned.filterMap fun id => g.declarations[id.index]? := by
  rw [holdings, hd]
  rfl

theorem SameCore.holdings_eq {g g' : Graph} (h : g.SameCore g') : g'.holdings = g.holdings := by
  funext document
  rcases h.document_cases document.index with ⟨hd, hd'⟩ | ⟨d, d', hd, hd', hcore⟩
  · rw [holdings, holdings, hd, hd']
  · have howned : d'.owned = d.owned := congrArg (·.owned) hcore
    rw [holdings_of_getElem? hd, holdings_of_getElem? hd', howned, h.declarations]

section

variable {g : Graph}

theorem getElem?_of_declaration {id : DeclarationId} {d : Declaration}
    (h : g.declaration id = .ok d) : g.declarations[id.index]? = some d := by
  unfold declaration at h
  split at h
  · next hd =>
    cases h
    exact hd
  · cases h

theorem Arranged.getElem?_id (h : g.Arranged) {t : Declaration}
    (ht : t ∈ g.declarations) : g.declarations[t.id.index]? = some t := by
  obtain ⟨i, hi⟩ := Array.getElem?_of_mem ht
  rw [h.declaration_index hi, hi]

theorem Arranged.document_getElem?_id (h : g.Arranged) {d : Document}
    (hd : d ∈ g.documents) : g.documents[d.id.index]? = some d := by
  obtain ⟨i, hi⟩ := Array.getElem?_of_mem hd
  rw [h.document_index hi, hi]

theorem Arranged.id_lt (h : g.Arranged) {d : Document} (hd : d ∈ g.documents) :
    d.id.index < g.documents.size :=
  (Array.getElem?_eq_some_iff.1 (h.document_getElem?_id hd)).1

/-- The handles of documents are those of the places in the arena. -/
theorem Arranged.mem_ids_iff (h : g.Arranged) {id : DocumentId} :
    id ∈ g.documents.toList.map (·.id) ↔ id.index < g.documents.size := by
  rw [List.mem_map]
  constructor
  · rintro ⟨d, hd, rfl⟩
    exact h.id_lt (Array.mem_toList_iff.1 hd)
  · intro hlt
    refine ⟨g.documents[id.index], by simp, ?_⟩
    exact Handle.ext (h.document_index (Array.getElem?_eq_getElem hlt))

theorem Arranged.exists_owner (h : g.Arranged) {d : Declaration} (hd : d ∈ g.declarations) :
    ∃ owner, g.documents[d.owner.index]? = some owner :=
  ⟨_, Array.getElem?_eq_getElem (h.owner_lt hd)⟩

theorem Arranged.ids_eq (h : g.Arranged) :
    g.documents.toList.map (·.id) = (List.range g.documents.size).map .ofIndex := by
  refine List.ext_getElem? fun i => ?_
  rw [List.getElem?_map, List.getElem?_map, Array.getElem?_toList]
  cases hd : g.documents[i]? with
  | none =>
    have hi := Array.getElem?_eq_none_iff.1 hd
    rw [List.getElem?_eq_none (by simpa using hi)]
    rfl
  | some d =>
    have hi := (Array.getElem?_eq_some_iff.1 hd).1
    rw [List.getElem?_range hi, Option.map_some, Option.map_some, ← h.document_index hd,
      Handle.ofIndex_index]

theorem Arranged.nodup_ids (h : g.Arranged) : (g.documents.toList.map (·.id)).Nodup := by
  rw [List.nodup_iff_pairwise_ne, List.pairwise_map, List.pairwise_iff_getElem]
  intro i j hi hj hij he
  have hd := h.document_index (Array.getElem?_eq_getElem (by simpa using hi))
  have hd' := h.document_index (Array.getElem?_eq_getElem (by simpa using hj))
  simp only [Array.getElem_toList] at he
  rw [he, hd'] at hd
  omega

theorem Arranged.nodup_declarations (h : g.Arranged) : g.declarations.toList.Nodup := by
  rw [List.nodup_iff_pairwise_ne, List.pairwise_iff_getElem]
  intro i j hi hj hij he
  have hd := h.declaration_index (Array.getElem?_eq_getElem (by simpa using hi))
  have hd' := h.declaration_index (Array.getElem?_eq_getElem (by simpa using hj))
  simp only [Array.getElem_toList] at he
  rw [he, hd'] at hd
  omega

theorem Arranged.declaration_eq (h : g.Arranged) {a b : Declaration} (ha : a ∈ g.declarations)
    (hb : b ∈ g.declarations) (he : a.id = b.id) : a = b := by
  have := h.getElem?_id ha
  rw [he, h.getElem?_id hb] at this
  exact (Option.some.inj this).symm

theorem Arranged.owned_eq (h : g.Arranged) {d : Document} (hd : d ∈ g.documents) :
    d.owned = (g.holdings d.id).map (·.id) := by
  rw [holdings_of_getElem? (h.document_getElem?_id hd)]
  have hall : ∀ id ∈ d.owned, ∃ a, g.declarations[id.index]? = some a ∧ a.id = id := by
    intro id hid
    obtain ⟨a, ha, rfl⟩ := List.mem_map.1
      ((h.owned_perm (h.document_getElem?_id hd)).mem_iff.1 hid)
    exact ⟨a, h.getElem?_id (Array.mem_toList_iff.1 (List.mem_filter.1 ha).1), rfl⟩
  generalize d.owned = ids at hall ⊢
  induction ids with
  | nil => rfl
  | cons id later ih =>
    obtain ⟨a, ha, hid⟩ := hall id List.mem_cons_self
    rw [List.filterMap_cons, ha]
    dsimp only
    rw [List.map_cons, hid, ← ih fun id' h' => hall id' (List.mem_cons_of_mem _ h')]

theorem Arranged.holdings_perm (h : g.Arranged) {d : Document} (hd : d ∈ g.documents) :
    (g.holdings d.id).Perm (g.declarationsOf d.id) := by
  have hp := h.owned_perm (h.document_getElem?_id hd)
  rw [holdings_of_getElem? (h.document_getElem?_id hd)]
  refine (hp.filterMap _).trans (List.Perm.of_eq ?_)
  rw [List.filterMap_map]
  have hall : ∀ a ∈ g.declarationsOf d.id, g.declarations[a.id.index]? = some a := fun a ha =>
    h.getElem?_id (Array.mem_toList_iff.1 (List.mem_filter.1 ha).1)
  generalize g.declarationsOf d.id = held at hall ⊢
  induction held with
  | nil => rfl
  | cons a later ih =>
    rw [List.filterMap_cons_some (by exact hall a List.mem_cons_self),
      ih fun b hb => hall b (List.mem_cons_of_mem _ hb)]

theorem Arranged.mem_holdings (h : g.Arranged) {document : DocumentId}
    (hlt : document.index < g.documents.size) {a : Declaration} :
    a ∈ g.holdings document ↔ a ∈ g.declarations ∧ a.owner = document := by
  have hd := h.document_index (Array.getElem?_eq_getElem hlt)
  rw [← Handle.ext hd, (h.holdings_perm (Array.getElem_mem hlt)).mem_iff, declarationsOf,
    List.mem_filter, Array.mem_toList_iff, beq_iff_eq]

theorem Arranged.nodup_holdings (h : g.Arranged) {document : DocumentId}
    (hlt : document.index < g.documents.size) : (g.holdings document).Nodup := by
  have hd := h.document_index (Array.getElem?_eq_getElem hlt)
  rw [← Handle.ext hd]
  refine (h.holdings_perm (Array.getElem_mem hlt)).nodup_iff.2 ?_
  exact h.nodup_declarations.filter _

/-- Every declaration is held once, in whatever order the documents are taken. -/
theorem Arranged.flatMap_holdings_perm (h : g.Arranged) {documents : List DocumentId}
    (hd : documents.Perm (g.documents.toList.map (·.id))) :
    (documents.flatMap g.holdings).Perm g.declarations.toList := by
  have hlt : ∀ document ∈ documents, document.index < g.documents.size :=
    fun document hm => h.mem_ids_iff.1 (hd.mem_iff.1 hm)
  refine (List.perm_ext_iff_of_nodup ?_ h.nodup_declarations).2 fun a => ?_
  · rw [List.nodup_iff_pairwise_ne, List.pairwise_flatMap]
    refine ⟨fun document hm => ?_, ?_⟩
    · exact h.nodup_holdings (hlt document hm)
    · -- what two documents hold has different owners
      refine List.Pairwise.imp_of_mem ?_ (hd.nodup_iff.2 h.nodup_ids)
      intro document document' hm hm' hne a ha a' ha' he
      rw [h.mem_holdings (hlt document hm)] at ha
      rw [h.mem_holdings (hlt document' hm')] at ha'
      exact hne (by rw [← ha.2, ← ha'.2, he])
  · rw [List.mem_flatMap, Array.mem_toList_iff]
    constructor
    · rintro ⟨document, hm, ha⟩
      exact ((h.mem_holdings (hlt document hm)).1 ha).1
    · intro ha
      have howner := h.owner_lt ha
      exact ⟨a.owner, hd.mem_iff.2 (h.mem_ids_iff.2 howner), (h.mem_holdings howner).2 ⟨ha, rfl⟩⟩

end

end Graph

end SchemaFamily
