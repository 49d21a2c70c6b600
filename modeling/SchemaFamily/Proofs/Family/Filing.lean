import Mathlib.Data.List.Find
import SchemaFamily.Proofs.Draft.WellFormed
import SchemaFamily.Proofs.Family.Drafts
import SchemaFamily.Proofs.Family.Kept
import SchemaFamily.Proofs.Family.Linking

/-
  How declarations are filed. A graph may be built by any operations in any order, some of which
  fail half way. Whatever they are, its declarations are made of one block for each document, and
  a document lists exactly its block: each declaration in the bucket of its kind, in order, and the
  first global one of each kind and name among its globals (`Filed`). Adding a draft adds a block
  (`Filed.insert`), nothing else changes what the blocks tell (`Filed.congr`), and so it holds after
  every run (`filed_build`). Only declarations are to have handles of their own: documents past
  the last handle share it, and list their blocks all the same.
-/

namespace SchemaFamily

/-! ## Buckets -/

/-- The list of its document that a declaration belongs to: the one of its kind, or `none` for the
    one of the inline declarations. -/
def Declaration.bucket (t : Declaration) : Option Kind :=
  match t.scope with
  | .everywhere => some t.kind
  | .inline => none

/-- The declarations of a document that belong to one bucket. -/
def Document.bucket (d : Document) : Option Kind → List DeclarationId
  | some .assembly => d.assemblies
  | some .field => d.fields
  | some .flag => d.flags
  | none => d.inline

theorem Declaration.bucket_outline (t : Declaration) : t.outline.bucket = t.bucket := by
  rw [bucket, bucket, scope_outline, kind_outline]

theorem Declaration.bucket_eq_some_iff {t : Declaration} {kind : Kind} :
    t.bucket = some kind ↔ t.scope = .everywhere ∧ t.kind = kind := by
  unfold bucket
  cases t.scope <;> simp

namespace Document

theorem bucket_adopt (d : Document) (t : Declaration) (b : Option Kind) :
    (d.adopt t).bucket b = d.bucket b ++ if t.bucket = b then [t.id] else [] := by
  unfold adopt Declaration.bucket
  cases t.scope with
  | inline => rcases b with _ | _ | _ | _ <;> simp [bucket]
  | everywhere => cases t.kind <;> rcases b with _ | _ | _ | _ <;> simp [bucket]

/-- Adopting declarations adds to each bucket those that belong to it, in order. -/
theorem bucket_foldl_adopt (d : Document) (ts : List Declaration) (b : Option Kind) :
    (ts.foldl adopt d).bucket b = d.bucket b ++ (ts.filter (·.bucket == b)).map (·.id) := by
  induction ts generalizing d with
  | nil => simp
  | cons t later ih =>
    rw [List.foldl_cons, ih, bucket_adopt, List.append_assoc]
    congr 1
    by_cases h : t.bucket = b <;> simp [h]

theorem adopt_outline (d : Document) (t : Declaration) : d.adopt t.outline = d.adopt t := by
  simp only [adopt, Declaration.scope_outline, Declaration.kind_outline, Declaration.name_outline,
    Declaration.id_outline]

theorem foldl_adopt_outline (d : Document) (ts : List Declaration) :
    (ts.map Declaration.outline).foldl adopt d = ts.foldl adopt d := by
  rw [List.foldl_map]
  simp only [adopt_outline]

theorem bucket_outline (d : Document) (b : Option Kind) : d.outline.bucket b = d.bucket b := by
  rcases b with _ | _ | _ | _ <;> rfl

end Document

/-! ## Inline targets -/

/-- The declaration that stands inside the usage at a slot. -/
def Declaration.inlineTarget? (t : Declaration) (slot : Slot) : Option DeclarationId :=
  (t.definition.usage? slot).bind Usage.inlineTarget?

theorem Declaration.inlineTarget?_outline (t : Declaration) (slot : Slot) :
    t.outline.inlineTarget? slot = t.inlineTarget? slot := by
  rw [inlineTarget?, inlineTarget?, outline, Definition.usage?_mapUsages, Option.bind_map]
  congr 1
  exact funext Usage.inlineTarget?_forget

theorem Usage.inlined?_of_inlineTarget? {u : Usage} {id : DeclarationId}
    (h : u.inlineTarget? = some id) : u.inlined? = some (u.kind, id) := by
  rcases u with ⟨kind, target | target⟩
  · cases h
  · cases h
    rfl

namespace Graph

/-- What stands inside a declaration of a draft is an inline declaration of the same draft. -/
theorem exists_inline_placed {draft : Draft} (hdraft : draft.WellFormed) (owner : DocumentId)
    {first : Nat} (hmax : first + draft.definitions.length ≤ maxIndex + 1) {t : Declaration}
    (ht : t ∈ placed owner first draft.definitions) {slot : Slot} {target : DeclarationId}
    (hs : t.inlineTarget? slot = some target) :
    ∃ t' ∈ placed owner first draft.definitions, t'.id = target ∧ t'.scope = .inline := by
  obtain ⟨i, hi⟩ := List.getElem?_of_mem ht
  rw [getElem?_placed] at hi
  obtain ⟨drafted, hdrafted, rfl⟩ := Option.map_eq_some_iff.1 hi
  rw [Declaration.inlineTarget?, Definition.rebase, Definition.usage?_mapUsages,
    Option.bind_map, Option.bind_eq_some_iff] at hs
  obtain ⟨u, hu, htarget⟩ := hs
  rw [Function.comp_apply, Usage.inlineTarget?_rebase] at htarget
  obtain ⟨id, hid, rfl⟩ := Option.map_eq_some_iff.1 htarget
  have hat : draft.inlineAt? i slot = some (u.kind, id) := by
    rw [Draft.inlineAt?, hdrafted, Option.bind_some, hu, Option.bind_some,
      Usage.inlined?_of_inlineTarget? hid]
  obtain ⟨j, d, hj, rfl, hd, hscope, _⟩ := hdraft.target hat
  have hlt := (List.getElem?_eq_some_iff.1 hd).1
  refine ⟨_, List.mem_of_getElem? (by rw [getElem?_placed, hd]; rfl), ?_, hscope⟩
  rw [Handle.offset, Handle.index_ofIndex_of_le (by omega), Nat.add_comm]

end Graph

/-! ## One block for each document -/

/-- The document number `i` is what becomes of one without declarations when it adopts `block`, and
    what stands inside a declaration of the block is in the block. The block is told but for what
    names are resolved to. -/
structure Document.Files (i : Nat) (block : List Declaration) (d : Document) : Prop where
  adopted : ∃ header imports,
    d.outline = block.foldl adopt { id := .ofIndex i, header, imports }
  owner : ∀ t ∈ block, t.owner = .ofIndex i
  inlined : ∀ t ∈ block, ∀ slot target, t.inlineTarget? slot = some target →
    ∃ t' ∈ block, t'.id = target ∧ t'.scope = .inline

namespace Document.Files

variable {i : Nat} {block : List Declaration} {d : Document}

theorem id (h : d.Files i block) : d.id = .ofIndex i := by
  obtain ⟨_, _, hd⟩ := h.adopted
  exact (congrArg Document.id hd).trans (id_foldl_adopt _ _)

theorem bucket (h : d.Files i block) (b : Option Kind) :
    d.bucket b = (block.filter (·.bucket == b)).map (·.id) := by
  obtain ⟨_, _, hd⟩ := h.adopted
  rw [← bucket_outline, hd, bucket_foldl_adopt]
  rcases b with _ | _ | _ | _ <;> rfl

theorem owned_perm (h : d.Files i block) : d.owned.Perm (block.map (·.id)) := by
  obtain ⟨header, imports, hd⟩ := h.adopted
  rw [show d.owned = d.outline.owned from rfl, hd]
  exact owned_foldl_adopt _ block

theorem globals (h : d.Files i block) (kind : Kind) (name : String) :
    d.globals.get? kind name = (block.find? (·.isGlobal kind name)).map (·.id) := by
  obtain ⟨_, _, hd⟩ := h.adopted
  rw [show d.globals = d.outline.globals from rfl, hd, get?_foldl_adopt]
  rfl

theorem congr (h : d.Files i block) {d' : Document} (ho : d'.outline = d.outline) :
    d'.Files i block :=
  { h with adopted := by rw [ho]; exact h.adopted }

end Document.Files

namespace Graph

/-- The declarations are those of `blocks`, one after the other and numbered by their places, and
    each document files the block of its number. -/
structure Filed (blocks : List (List Declaration)) (g : Graph) : Prop where
  declarations : g.declarations.toList.map Declaration.outline = blocks.flatten
  numbered : ∀ {i : Nat} {t : Declaration}, blocks.flatten[i]? = some t → t.id = .ofIndex i
  size : blocks.length = g.documents.size
  files : ∀ {i : Nat} {block : List Declaration} {d : Document}, blocks[i]? = some block →
    g.documents[i]? = some d → d.Files i block

variable {g g' : Graph} {blocks : List (List Declaration)}

theorem filed_empty : Filed [] {} := by
  refine ⟨rfl, ?_, rfl, ?_⟩
  · intro i t ht
    simp at ht
  · intro i block d hblock
    simp at hblock

/-- What a graph files can be told from its outline. -/
theorem Filed.congr (h : g.Filed blocks) (hs : g.SameOutline g') : g'.Filed blocks := by
  refine ⟨?_, h.numbered, h.size.trans hs.size_documents, ?_⟩
  · rw [← h.declarations, ← Array.toList_map, ← Array.toList_map, hs.declarations]
  · intro i block d hblock hd
    obtain ⟨d', hd', ho⟩ := hs.symm.exists_document hd
    exact (h.files hblock hd').congr ho.symm

theorem outline_documentOf (g : Graph) (draft : Draft) :
    (g.documentOf draft).outline = g.documentOf draft := by
  obtain ⟨_, _, _, _, _, h⟩ := g.exists_documentOf draft
  rw [h]
  rfl

/-- The block of a draft that is added to a graph. -/
def blockOf (g : Graph) (draft : Draft) : List Declaration :=
  (placed (.ofIndex g.documents.size) g.declarations.size draft.definitions).map
    Declaration.outline

theorem files_documentOf (g : Graph) {draft : Draft} (hdraft : draft.WellFormed)
    (hmax : g.declarations.size + draft.definitions.length ≤ maxIndex + 1) :
    (g.documentOf draft).Files g.documents.size (g.blockOf draft) := by
  refine ⟨⟨draft.header, draft.imports, ?_⟩, ?_, ?_⟩
  · rw [outline_documentOf, blockOf, Document.foldl_adopt_outline]
    rfl
  · intro t ht
    obtain ⟨t', ht', rfl⟩ := List.mem_map.1 ht
    rw [Declaration.owner_outline, owner_of_mem_placed ht']
  · intro t ht slot target hs
    obtain ⟨t₀, ht₀, rfl⟩ := List.mem_map.1 ht
    rw [Declaration.inlineTarget?_outline] at hs
    obtain ⟨t', ht', hid, hscope⟩ := exists_inline_placed hdraft _ hmax ht₀ hs
    exact ⟨_, List.mem_map_of_mem ht', hid, hscope⟩

/-- A draft that was read adds its block. -/
theorem Filed.insert (h : g.Filed blocks) {draft : Draft} (hdraft : draft.WellFormed)
    (hmax : (g.insert draft).1.declarations.size ≤ maxIndex + 1) :
    (g.insert draft).1.Filed (blocks ++ [g.blockOf draft]) := by
  rw [size_declarations_insert] at hmax
  have hlength : blocks.flatten.length = g.declarations.size := by
    rw [← h.declarations, List.length_map, Array.length_toList]
  refine ⟨?_, ?_, ?_, ?_⟩
  · rw [declarations_insert, Array.toList_append, List.map_append, h.declarations,
      List.flatten_append]
    simp [blockOf]
  · intro i t ht
    rw [List.flatten_append, List.flatten_singleton, List.getElem?_append] at ht
    split at ht
    · exact h.numbered ht
    · rw [blockOf, List.getElem?_map, getElem?_placed, Option.map_map] at ht
      obtain ⟨drafted, _, rfl⟩ := Option.map_eq_some_iff.1 ht
      show Handle.ofIndex _ = _
      congr 1
      omega
  · rw [size_documents_insert, ← h.size, List.length_append, List.length_singleton]
  · intro i block d hblock hd
    rw [documents_insert, Array.getElem?_push] at hd
    rw [List.getElem?_append, h.size] at hblock
    split at hd
    · next hi =>
      cases hd
      rw [if_neg (by omega), hi, Nat.sub_self] at hblock
      cases hblock
      rw [hi]
      exact files_documentOf g hdraft hmax
    · have hi := (Array.getElem?_eq_some_iff.1 hd).1
      rw [if_pos hi] at hblock
      exact h.files hblock hd

/-! ## What a graph files -/

namespace Filed

theorem getElem?_flatten (h : g.Filed blocks) (i : Nat) :
    blocks.flatten[i]? = g.declarations[i]?.map Declaration.outline := by
  rw [← h.declarations, List.getElem?_map, Array.getElem?_toList]

theorem mem_flatten (h : g.Filed blocks) {t : Declaration} (ht : t ∈ g.declarations) :
    t.outline ∈ blocks.flatten := by
  rw [← h.declarations]
  exact List.mem_map_of_mem (Array.mem_toList_iff.2 ht)

theorem exists_of_mem (h : g.Filed blocks) {block : List Declaration} (hblock : block ∈ blocks)
    {t : Declaration} (ht : t ∈ block) : ∃ t' ∈ g.declarations, t'.outline = t := by
  have hm := List.mem_flatten_of_mem hblock ht
  rw [← h.declarations, List.mem_map] at hm
  obtain ⟨t', ht', he⟩ := hm
  exact ⟨t', Array.mem_toList_iff.1 ht', he⟩

theorem exists_document (h : g.Filed blocks) {i : Nat} {block : List Declaration}
    (hblock : blocks[i]? = some block) : ∃ d, g.documents[i]? = some d ∧ d.Files i block := by
  have hi := (List.getElem?_eq_some_iff.1 hblock).1
  rw [h.size] at hi
  exact ⟨_, Array.getElem?_eq_getElem hi, h.files hblock (Array.getElem?_eq_getElem hi)⟩

theorem exists_block (h : g.Filed blocks) {i : Nat} {d : Document}
    (hd : g.documents[i]? = some d) : ∃ block, blocks[i]? = some block ∧ d.Files i block := by
  have hi := (Array.getElem?_eq_some_iff.1 hd).1
  rw [← h.size] at hi
  exact ⟨_, List.getElem?_eq_getElem hi, h.files (List.getElem?_eq_getElem hi) hd⟩

theorem exists_block_of_mem (h : g.Filed blocks) {d : Document} (hd : d ∈ g.documents) :
    ∃ i, ∃ block ∈ blocks, d.Files i block := by
  obtain ⟨i, hi⟩ := Array.getElem?_of_mem hd
  obtain ⟨block, hblock, hfiles⟩ := h.exists_block hi
  exact ⟨i, block, List.mem_of_getElem? hblock, hfiles⟩

/-- Every declaration is in the block of a document. -/
theorem exists_home (h : g.Filed blocks) {t : Declaration} (ht : t ∈ g.declarations) :
    ∃ (i : Nat) (d : Document), g.documents[i]? = some d ∧
      ∃ block ∈ blocks, t.outline ∈ block ∧ d.Files i block := by
  obtain ⟨block, hblock, hm⟩ := List.mem_flatten.1 (h.mem_flatten ht)
  obtain ⟨i, hi⟩ := List.getElem?_of_mem hblock
  obtain ⟨d, hd, hfiles⟩ := h.exists_document hi
  exact ⟨i, d, hd, block, hblock, hm, hfiles⟩

theorem declaration_id (h : g.Filed blocks) {i : Nat} {t : Declaration}
    (ht : g.declarations[i]? = some t) : t.id = .ofIndex i := by
  have hi := h.getElem?_flatten i
  rw [ht, Option.map_some] at hi
  rw [← Declaration.id_outline, h.numbered hi]

theorem flatMap_owned_perm_flatten {documents : List Document} {blocks : List (List Declaration)}
    (h : List.Forall₂ (fun (d : Document) (block : List Declaration) =>
      d.owned.Perm (block.map (·.id))) documents blocks) :
    (documents.flatMap Document.owned).Perm (blocks.flatten.map (·.id)) := by
  induction h with
  | nil => exact .refl _
  | cons hd _ ih =>
    rw [List.flatMap_cons, List.flatten_cons, List.map_append]
    exact hd.append ih

/-- What all documents list are the declarations. -/
theorem flatMap_owned_perm (h : g.Filed blocks) :
    (g.documents.toList.flatMap Document.owned).Perm (g.declarations.toList.map (·.id)) := by
  have hperm : (g.documents.toList.flatMap Document.owned).Perm (blocks.flatten.map (·.id)) := by
    refine flatMap_owned_perm_flatten (List.forall₂_iff_get.2 ⟨h.size.symm, fun i hi hi' => ?_⟩)
    refine (h.files (i := i) (List.getElem?_eq_getElem hi') ?_).owned_perm
    rw [← Array.getElem?_toList]
    exact List.getElem?_eq_getElem hi
  rw [← h.declarations, List.map_map] at hperm
  exact hperm

section

variable (h : g.Filed blocks) (hmax : g.declarations.size ≤ maxIndex + 1)

include h hmax

/-- No two declarations share a handle, and later ones have greater handles. -/
theorem increasing : blocks.flatten.Pairwise fun t t' => t.id.index < t'.id.index := by
  have hlength : blocks.flatten.length = g.declarations.size := by
    rw [← h.declarations, List.length_map, Array.length_toList]
  rw [List.pairwise_iff_getElem]
  intro i j hi hj hij
  rw [h.numbered (List.getElem?_eq_getElem hi), h.numbered (List.getElem?_eq_getElem hj),
    Handle.index_ofIndex_of_le (by omega), Handle.index_ofIndex_of_le (by omega)]
  exact hij

theorem index_id {i : Nat} {t : Declaration} (ht : g.declarations[i]? = some t) :
    t.id.index = i := by
  have hi := (Array.getElem?_eq_some_iff.1 ht).1
  rw [h.declaration_id ht, Handle.index_ofIndex_of_le (by omega)]

theorem getElem?_id {t : Declaration} (ht : t ∈ g.declarations) :
    g.declarations[t.id.index]? = some t := by
  obtain ⟨i, hi⟩ := Array.getElem?_of_mem ht
  rw [h.index_id hmax hi, hi]

theorem nodup_ids : (g.declarations.toList.map (·.id)).Nodup := by
  have hne : blocks.flatten.Pairwise fun t t' => t.id ≠ t'.id :=
    (h.increasing hmax).imp fun hlt he => absurd (congrArg Handle.index he) (Nat.ne_of_lt hlt)
  rw [← h.declarations, List.pairwise_map] at hne
  rw [List.nodup_iff_pairwise_ne, List.pairwise_map]
  exact hne

theorem increasing_bucket {d : Document} (hd : d ∈ g.documents) (b : Option Kind) :
    (d.bucket b).Pairwise fun id id' => id.index < id'.index := by
  obtain ⟨_, block, hblock, hfiles⟩ := h.exists_block_of_mem hd
  rw [hfiles.bucket, List.pairwise_map]
  refine (h.increasing hmax).sublist (List.filter_sublist.trans ?_)
  exact List.sublist_flatten_of_mem hblock

/-- The globals of a document are the first declarations of each name in the bucket of a kind. -/
theorem globals_eq {d : Document} (hd : d ∈ g.documents) (kind : Kind) (name : String) :
    d.globals.get? kind name = (d.bucket (some kind)).find? fun id =>
      g.declarations[id.index]?.any (·.name == name) := by
  obtain ⟨_, block, hblock, hfiles⟩ := h.exists_block_of_mem hd
  rw [hfiles.globals, hfiles.bucket, List.find?_map, List.find?_filter]
  congr 1
  refine List.find?_congr fun t ht => ?_
  obtain ⟨t', ht', rfl⟩ := h.exists_of_mem hblock ht
  rw [Bool.eq_iff_iff, Declaration.isGlobal_outline, Declaration.isGlobal_iff, decide_eq_true_iff,
    beq_iff_eq, Declaration.bucket_outline, Declaration.bucket_eq_some_iff, Function.comp_apply,
    Declaration.id_outline, h.getElem?_id hmax ht', Option.any_some, beq_iff_eq, and_assoc]

end

end Filed

/-- Every declaration is numbered by its place and listed once, by its owner in its bucket; buckets
    are in order, globals are first declarations, and inline targets are inline declarations of the
    same document. -/
structure Catalogued (g : Graph) : Prop where
  declaration_raw : ∀ {i : Nat} {t : Declaration}, g.declarations[i]? = some t → t.id.raw = i + 1
  document_raw : ∀ {i : Nat} {d : Document}, g.documents[i]? = some d →
    d.id.raw = min (i + 1) (maxIndex + 1)
  once : (g.documents.toList.flatMap Document.owned).Perm (g.declarations.toList.map (·.id)) ∧
    (g.declarations.toList.map (·.id)).Nodup
  listed : ∀ t ∈ g.declarations, ∃ d ∈ g.documents, d.id = t.owner ∧ t.id ∈ d.bucket t.bucket ∧
    (g.documents.size ≤ maxIndex + 1 → g.document t.owner = .ok d)
  bucket : ∀ d ∈ g.documents, ∀ b,
    ((d.bucket b).Pairwise fun id id' => id.index < id'.index) ∧
      ∀ id ∈ d.bucket b, ∃ t, g.declaration id = .ok t ∧ t.id = id ∧ t.owner = d.id ∧ t.bucket = b
  globals : ∀ d ∈ g.documents, ∀ kind name, d.globals.get? kind name =
    (d.bucket (some kind)).find? fun id => g.declarations[id.index]?.any (·.name == name)
  inlined : ∀ t ∈ g.declarations, ∀ slot u target, t.definition.usage? slot = some u →
    u.target = .inline target →
      ∃ t', g.declaration target = .ok t' ∧ t'.id = target ∧ t'.scope = .inline ∧
        t'.owner = t.owner

theorem declaration_of_getElem? {id : DeclarationId} {t : Declaration}
    (h : g.declarations[id.index]? = some t) : g.declaration id = .ok t := by
  rw [declaration, h]

theorem Filed.catalogued (h : g.Filed blocks) (hmax : g.declarations.size ≤ maxIndex + 1) :
    g.Catalogued := by
  refine ⟨?_, ?_, ⟨h.flatMap_owned_perm, h.nodup_ids hmax⟩, ?_, ?_, ?_, ?_⟩
  · intro i t ht
    rw [Handle.raw, h.index_id hmax ht]
  · intro i d hd
    obtain ⟨block, _, hfiles⟩ := h.exists_block hd
    rw [Handle.raw, hfiles.id, Handle.index_ofIndex, Nat.add_min_add_right]
  · intro t ht
    obtain ⟨i, d, hd, block, _, hm, hfiles⟩ := h.exists_home ht
    have howner : t.owner = .ofIndex i := by
      rw [← Declaration.owner_outline, hfiles.owner _ hm]
    refine ⟨d, Array.mem_of_getElem? hd, hfiles.id.trans howner.symm, ?_, fun hdocuments => ?_⟩
    · rw [hfiles.bucket]
      refine List.mem_map.2 ⟨_, List.mem_filter.2 ⟨hm, ?_⟩, rfl⟩
      rw [Declaration.bucket_outline, beq_self_eq_true]
    · have hlt := (Array.getElem?_eq_some_iff.1 hd).1
      rw [document, howner, Handle.index_ofIndex_of_le (by omega), hd]
  · intro d hd b
    refine ⟨h.increasing_bucket hmax hd b, fun id hid => ?_⟩
    obtain ⟨_, block, hblock, hfiles⟩ := h.exists_block_of_mem hd
    rw [hfiles.bucket] at hid
    obtain ⟨t, ht, rfl⟩ := List.mem_map.1 hid
    obtain ⟨hm, hb⟩ := List.mem_filter.1 ht
    obtain ⟨t, htm, rfl⟩ := h.exists_of_mem hblock hm
    rw [Declaration.bucket_outline] at hb
    have howner : t.owner = d.id := by
      rw [← Declaration.owner_outline, hfiles.owner _ hm, hfiles.id]
    exact ⟨t, declaration_of_getElem? (h.getElem?_id hmax htm), rfl, howner, eq_of_beq hb⟩
  · exact fun d hd => h.globals_eq hmax hd
  · intro t ht slot u target hu htarget
    obtain ⟨_, _, _, block, hblock, hm, hfiles⟩ := h.exists_home ht
    have hslot : t.outline.inlineTarget? slot = some target := by
      rw [Declaration.inlineTarget?_outline, Declaration.inlineTarget?, hu, Option.bind_some,
        Usage.inlineTarget?, htarget]
    obtain ⟨t', ht', rfl, hscope⟩ := hfiles.inlined _ hm _ _ hslot
    have howner : t'.owner = t.owner := (hfiles.owner _ ht').trans (hfiles.owner _ hm).symm
    obtain ⟨t', htm', rfl⟩ := h.exists_of_mem hblock ht'
    exact ⟨t', declaration_of_getElem? (h.getElem?_id hmax htm'), rfl, hscope, howner⟩

end Graph

/-! ## Operations -/

/-- What is done to a graph: a draft is added, an import is recorded, all names or those of one
    document are resolved, or multiplexers are made. -/
inductive Operation where
  | insert (draft : Draft)
  | addImport (parent child : DocumentId)
  | link
  | linkDocument (document : DocumentId)
  | reconcile (suffix : String)

/-- The graph after an operation, which may have failed half way. -/
def Operation.run (g : Graph) : Operation → Graph
  | .insert draft => (g.insert draft).1
  | .addImport parent child => (g.addImport parent child).toOption.getD g
  | .link => (SchemaFamily.link.apply g).2
  | .linkDocument document => ((SchemaFamily.linkDocument document).apply g).2
  | .reconcile suffix => ((SchemaFamily.reconcile suffix).apply g).2

/-- The graph after some operations. -/
def Graph.build (operations : List Operation) : Graph := operations.foldl Operation.run {}

/-- The draft that is added, if one is, was read from some text. -/
def Operation.AddsReadDraft : Operation → Prop
  | .insert draft => draft.ReadFromText
  | _ => True

theorem Graph.sameOutline_addImport (g : Graph) (parent child : DocumentId) :
    g.SameOutline ((g.addImport parent child).toOption.getD g) := by
  rw [addImport]
  cases g.document parent with
  | error dangling => exact .refl g
  | ok d => exact g.sameOutline_attach parent child

namespace Operation

variable {g : Graph} {blocks : List (List Declaration)}

/-- All but adding a draft keep the outline. -/
theorem sameOutline_run (g : Graph) {operation : Operation}
    (h : ∀ draft, operation ≠ .insert draft) : g.SameOutline (operation.run g) := by
  cases operation with
  | insert draft => exact absurd rfl (h draft)
  | addImport parent child => exact g.sameOutline_addImport parent child
  | link => exact keeps_link g
  | linkDocument document => exact keeps_linkDocument document g
  | reconcile suffix => exact keeps_reconcile suffix g

theorem size_le_run (g : Graph) (operation : Operation) :
    g.declarations.size ≤ (operation.run g).declarations.size := by
  cases operation with
  | insert draft =>
    show _ ≤ (g.insert draft).1.declarations.size
    rw [Graph.size_declarations_insert]
    exact Nat.le_add_right _ _
  | _ =>
    refine Nat.le_of_eq (sameOutline_run g ?_).size_declarations
    intro draft h
    cases h

theorem size_le_runs (g : Graph) (operations : List Operation) :
    g.declarations.size ≤ (operations.foldl run g).declarations.size := by
  induction operations generalizing g with
  | nil => exact Nat.le_refl _
  | cons operation later ih => exact Nat.le_trans (size_le_run g operation) (ih _)

/-- One operation leaves the blocks there are and adds at most one. -/
theorem filed_run (h : g.Filed blocks) {operation : Operation} (hadds : operation.AddsReadDraft)
    (hmax : (operation.run g).declarations.size ≤ maxIndex + 1) :
    ∃ more, (operation.run g).Filed (blocks ++ more) := by
  cases operation with
  | insert draft =>
    obtain ⟨entities, path, source, hread⟩ := hadds
    exact ⟨_, h.insert (Draft.wellFormed_of_read hread) hmax⟩
  | _ =>
    refine ⟨[], ?_⟩
    rw [List.append_nil]
    refine h.congr (sameOutline_run g ?_)
    intro draft h
    cases h

theorem filed_runs (h : g.Filed blocks) {operations : List Operation}
    (hadds : ∀ operation ∈ operations, operation.AddsReadDraft)
    (hmax : (operations.foldl run g).declarations.size ≤ maxIndex + 1) :
    ∃ more, (operations.foldl run g).Filed (blocks ++ more) := by
  induction operations generalizing g blocks with
  | nil => exact ⟨[], by rwa [List.append_nil]⟩
  | cons operation later ih =>
    rw [List.forall_mem_cons] at hadds
    obtain ⟨more, hone⟩ := filed_run h hadds.1 (Nat.le_trans (size_le_runs _ later) hmax)
    obtain ⟨more', hall⟩ := ih hone hadds.2 hmax
    exact ⟨more ++ more', by rwa [← List.append_assoc]⟩

end Operation

namespace Graph

variable {operations : List Operation}

theorem filed_build (hadds : ∀ operation ∈ operations, operation.AddsReadDraft)
    (hmax : (build operations).declarations.size ≤ maxIndex + 1) :
    ∃ blocks, (build operations).Filed blocks :=
  Operation.filed_runs filed_empty hadds hmax

/-- Later blocks do not change what an earlier block tells of a declaration. -/
theorem Filed.outline_eq {g g' : Graph} {blocks more : List (List Declaration)}
    (h : g.Filed blocks) (h' : g'.Filed (blocks ++ more)) {i : Nat} {t : Declaration}
    (ht : g.declarations[i]? = some t) :
    ∃ t', g'.declarations[i]? = some t' ∧ t'.outline = t.outline := by
  have hold := h.getElem?_flatten i
  rw [ht, Option.map_some] at hold
  have hnew := h'.getElem?_flatten i
  rw [List.flatten_append, List.getElem?_append_left (List.getElem?_eq_some_iff.1 hold).1,
    hold] at hnew
  exact Option.map_eq_some_iff.1 hnew.symm

/-- After any operations on the empty graph, whether they succeed or fail half way, every
    declaration is numbered and listed once where it belongs, and it keeps its handle, its owner,
    its scope and its name from then on. Drafts are to be read from texts, and declarations are to
    have handles of their own. -/
theorem catalogued_build (hadds : ∀ operation ∈ operations, operation.AddsReadDraft)
    (hmax : (build operations).declarations.size ≤ maxIndex + 1) :
    (build operations).Catalogued ∧
      ∀ before after, operations = before ++ after → ∀ (i : Nat) (t : Declaration),
        (build before).declarations[i]? = some t →
          ∃ t', (build operations).declarations[i]? = some t' ∧ t'.id = t.id ∧
            t'.owner = t.owner ∧ t'.scope = t.scope ∧ t'.kind = t.kind ∧ t'.name = t.name := by
  obtain ⟨blocks, hfiled⟩ := filed_build hadds hmax
  refine ⟨hfiled.catalogued hmax, ?_⟩
  rintro before after rfl i t ht
  rw [List.forall_mem_append] at hadds
  rw [build, List.foldl_append] at hmax
  obtain ⟨blocks, hbefore⟩ := filed_build hadds.1 (Nat.le_trans (Operation.size_le_runs _ _) hmax)
  obtain ⟨more, hafter⟩ := Operation.filed_runs hbefore hadds.2 hmax
  obtain ⟨t', ht', ho⟩ := hbefore.outline_eq hafter ht
  refine ⟨t', ?_, Declaration.id_of_outline ho, Declaration.owner_of_outline ho,
    Declaration.scope_of_outline ho, Declaration.kind_of_outline ho, congrArg (·.name) ho⟩
  rw [build, List.foldl_append]
  exact ht'

/-- A flag of its own stands inside the field of an assembly, which refers to a flag that there is
    not. -/
def unlinkedText : String :=
  "<METASCHEMA><define-assembly name=\"a\"><flag ref=\"x\"/><model><define-field name=\"b\">" ++
    "<define-flag name=\"c\"/></define-field></model></define-assembly></METASCHEMA>"

theorem catalogued_unlinkedText :
    ∃ draft, Draft.read [] ⟨"a"⟩ unlinkedText = .ok draft ∧
      (link.apply (build [.insert draft, .insert draft])).1.toOption = none ∧
      (build [.insert draft, .link, .insert draft, .addImport (.ofIndex 0) (.ofIndex 1), .link,
        .reconcile "Group"]).declarations.size = 6 ∧
      (build [.insert draft, .link, .insert draft, .addImport (.ofIndex 0) (.ofIndex 1), .link,
        .reconcile "Group"]).Catalogued := by
  have hkey : ((Draft.read [] ⟨"a"⟩ unlinkedText).toOption.map fun draft =>
      ((link.apply (build [.insert draft, .insert draft])).1.toOption,
        (build [.insert draft, .link, .insert draft, .addImport (.ofIndex 0) (.ofIndex 1), .link,
          .reconcile "Group"]).declarations.size)) = some (none, 6) := by
    decide +kernel
  cases hread : Draft.read [] ⟨"a"⟩ unlinkedText with
  | error e =>
    rw [hread] at hkey
    cases hkey
  | ok draft =>
    rw [hread] at hkey
    obtain ⟨hfails, hsize⟩ := Prod.mk.inj (Option.some.inj hkey)
    refine ⟨draft, rfl, hfails, hsize, (catalogued_build ?_ ?_).1⟩
    · have hdraft : draft.ReadFromText := ⟨_, _, _, hread⟩
      simp [Operation.AddsReadDraft, hdraft]
    · rw [hsize]
      decide

end Graph

end SchemaFamily
