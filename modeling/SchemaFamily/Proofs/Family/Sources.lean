import SchemaFamily.Proofs.Draft.Origins
import SchemaFamily.Proofs.Family.Linking
import SchemaFamily.Proofs.Family.Shifting
import SchemaFamily.Proofs.Family.Walks
import SchemaFamily.Proofs.Xml.Places

/-
  Where in its files the contents of a family come from. Every declaration belongs to a document,
  and the document `Drafts` what is in its file: its declarations are the definitions of the text,
  and each of these has its origin in the element tree (`exists_drafts`). So the usages of a
  declaration are said by elements in the one that defines it (`Graph.Drafts.exists_saidBy`), also
  after names were resolved, as this leaves the outline of a declaration as it was.
-/

namespace SchemaFamily

open Xml

/-! ## Elements in a tree -/

namespace Xml.Element

variable {root d e : Element}

theorem Entry.tags_subset (h : d.Entry e) : e.tags ⊆ d.tags := by
  obtain ⟨model, hmodel, _, he⟩ := h
  have hd := Element.tags_subset (List.mem_of_find?_eq_some hmodel)
  rcases he with he | ⟨choice, hchoice, _, he⟩
  · exact List.Subset.trans (Element.tags_subset he) hd
  · have hmodel := List.Subset.trans (Element.tags_subset he) (Element.tags_subset hchoice)
    exact List.Subset.trans hmodel hd

/-- A definition of a document stands in its tree. -/
theorem Defines.tags_subset (h : root.Defines e) : e.tags ⊆ root.tags := by
  induction h with
  | child child _ => exact Element.tags_subset child
  | flag _ _ child _ ih => exact List.Subset.trans (Element.tags_subset child) ih
  | entry _ _ entry _ ih => exact List.Subset.trans entry.tags_subset ih

end Xml.Element

/-! ## Usages apart from their handles -/

section

variable {u v : Usage} {first : Nat}

/-- What a usage is apart from its handles is what it is in the draft. -/
theorem Usage.eq_of_forget (h : u.forget = v.rebase first) :
    u.kind = v.kind ∧ u.position = v.position ∧ u.groupAs = v.groupAs ∧
      u.referenceName? = v.referenceName? ∧
      u.inlineTarget? = v.inlineTarget?.map (·.offset first) := by
  rcases u with ⟨kind, ⟨name, resolved⟩ | id⟩ <;>
    rcases v with ⟨kind', ⟨name', resolved'⟩ | id'⟩ <;>
    cases h <;> exact ⟨rfl, rfl, rfl, rfl, rfl⟩

theorem Usage.target_of_referenceName? {name : String} (h : u.referenceName? = some name) :
    ∃ resolved, u.target = .reference name resolved := by
  unfold referenceName? at h
  split at h
  · next resolved htarget =>
    cases h
    exact ⟨resolved, htarget⟩
  · cases h

theorem Usage.target_of_inlineTarget? {id : DeclarationId} (h : u.inlineTarget? = some id) :
    u.target = .inline id := by
  unfold inlineTarget? at h
  split at h
  · next htarget =>
    cases h
    exact htarget
  · cases h

end

@[simp]
theorem Definition.jsonKey_mapUsages (f : Usage → Usage) (d : Definition) :
    (d.mapUsages f).jsonKey = d.jsonKey := by
  rcases d with ⟨name, metadata, body | body | body⟩ <;> rfl

namespace Declaration

variable {a a' : Declaration}

theorem name_of_outline (h : a'.outline = a.outline) : a'.name = a.name := congrArg (·.name) h

theorem jsonKey_of_outline (h : a'.outline = a.outline) :
    a'.definition.jsonKey = a.definition.jsonKey := by
  have := congrArg (fun d => d.definition.jsonKey) h
  simpa only [outline, Definition.jsonKey_mapUsages] using this

/-- The element is a definition of the document that defines the declaration. -/
structure DefinedBy (a : Declaration) (root e : Element) : Prop where
  defines : root.Defines e
  name : e.attribute? "name" = some a.name
  jsonKey : a.definition.jsonKey = (e.child? "json-key").bind (·.attribute? "flag-name")

end Declaration

/-! ## Documents and their files -/

/-- The text is in the file of the document, and `root` is its tree. -/
structure Document.HasText (d : Document) (disk : Disk) (entities : EntityMap) (text : String)
    (root : Element) : Prop where
  read : disk.read d.header.source = .ok text
  parsed : Element.parse entities text = .ok root

/-- The declarations of the document are the definitions of a draft, numbered from `first` on, and
    each of these has its origin in the tree. -/
structure Graph.Drafts (g : Graph) (d : Document) (root : Element) (draft : Draft) (first : Nat) :
    Prop where
  mem : d ∈ g.documents
  declarations : ∀ place, (g.declarationsOf d.id)[place]? =
    draft.definitions[place]?.map fun t : Drafted => t.declaration d.id first place
  wellFormed : draft.WellFormed
  origin : ∀ t ∈ draft.definitions, ∃ e, t.Origin root draft.definitions e

namespace Graph.Drafts

variable {g : Graph} {d : Document} {root : Element} {draft : Draft} {first : Nat}
  (h : g.Drafts d root draft first) {a : Declaration}

include h

/-- Every definition of the draft is a declaration. -/
theorem mem_of_getElem? {place : Nat} {t : Drafted} (ht : draft.definitions[place]? = some t) :
    t.declaration d.id first place ∈ g.declarations := by
  have hplace := h.declarations place
  rw [ht, Option.map_some] at hplace
  exact Array.mem_toList_iff.1 (List.mem_filter.1 (List.mem_of_getElem? hplace)).1

/-- Every declaration of the document is a definition of the draft. -/
theorem exists_definition (ha : a ∈ g.declarations) (howner : a.owner = d.id) :
    ∃ t ∈ draft.definitions, a.definition = t.definition.rebase first := by
  have hmem : a ∈ g.declarationsOf d.id :=
    List.mem_filter.2 ⟨Array.mem_toList_iff.2 ha, beq_iff_eq.2 howner⟩
  obtain ⟨place, hplace⟩ := List.getElem?_of_mem hmem
  rw [h.declarations, Option.map_eq_some_iff] at hplace
  obtain ⟨t, ht, rfl⟩ := hplace
  exact ⟨t, List.mem_of_getElem? ht, (t.definition.rebase_eq_shiftInline first).symm⟩

omit h in
/-- What makes a definition of a draft defines its declaration. -/
theorem definedBy_of_madeBy {t : Drafted} {e : Element}
    (hdefinition : a.definition = t.definition.rebase first) (hmade : t.MadeBy e)
    (hdefines : root.Defines e) (hkind : a.kind ≠ .flag) : a.DefinedBy root e := by
  refine ⟨hdefines, ?_, ?_⟩
  · rw [hmade.name, Declaration.name, hdefinition]
    rfl
  · rw [Declaration.kind, hdefinition, Definition.rebase, Definition.kind_mapUsages] at hkind
    rw [hdefinition, Definition.rebase, Definition.jsonKey_mapUsages]
    exact hmade.jsonKey hkind

/-- An assembly or a field is defined by an element of the document. -/
theorem exists_definedBy (ha : a ∈ g.declarations) (howner : a.owner = d.id)
    (hkind : a.kind ≠ .flag) : ∃ e, a.DefinedBy root e := by
  obtain ⟨t, ht, hdefinition⟩ := h.exists_definition ha howner
  obtain ⟨e, he⟩ := h.origin t ht
  rcases he.stands with hdefines | ⟨_, _, _, hflag⟩
  · exact ⟨e, definedBy_of_madeBy hdefinition he.made hdefines hkind⟩
  · rw [Declaration.kind, hdefinition, Definition.rebase, Definition.kind_mapUsages] at hkind
    exact absurd hflag hkind

/-- A usage of a declaration, its name resolved or not, is said by an element in the definition that
    gives the declaration its name. -/
theorem exists_saidBy {a' : Declaration} (ha : a ∈ g.declarations) (howner : a.owner = d.id)
    (ho : a'.outline = a.outline) {slot : Slot} {u : Usage}
    (hu : a'.definition.usage? slot = some u) :
    ∃ (e x : Element) (v : Usage), root.Defines e ∧ e.attribute? "name" = some a'.name ∧
      (x ∈ e.elements ∧ root.UsesFlag x ∧ u.IsFlag ∨
        x ∈ e.entries ∧ root.UsesInModel x ∧ u.IsModel) ∧
      u.forget = v.rebase first ∧ v.SaidBy draft.definitions x := by
  obtain ⟨t, ht, hdefinition⟩ := h.exists_definition ha howner
  have hfresh : (t.definition.rebase first).Fresh := (h.wellFormed.fresh t ht).rebase first
  have houtline : a'.definition.mapUsages Usage.forget = t.definition.rebase first := by
    rw [← hfresh.mapUsages_forget, ← hdefinition]
    exact congrArg Declaration.definition ho
  have hslot := congrArg (Definition.usage? · slot) houtline
  rw [Definition.rebase, Definition.usage?_mapUsages, Definition.usage?_mapUsages, hu,
    Option.map_some] at hslot
  obtain ⟨v, hv, hrebase⟩ := Option.map_eq_some_iff.1 hslot.symm
  obtain ⟨e, he⟩ := h.origin t ht
  have hmem : (slot, v) ∈ t.definition.usages := Definition.mem_usages_iff.2 hv
  obtain ⟨x, hx, hsaid⟩ := he.exists_saidBy (h.wellFormed.sorted t ht) hmem
  obtain ⟨hkind, _, hgroup, _⟩ := Usage.eq_of_forget hrebase.symm
  refine ⟨e, x, v, he.defines hmem, ?_, ?_, hrebase.symm, hsaid⟩
  · rw [he.made.name, Declaration.name_of_outline ho, Declaration.name, hdefinition]
    rfl
  · refine hx.imp (And.imp_right (And.imp_right fun hflag => ?_))
      (And.imp_right (And.imp_right fun hmodel => ?_))
    · exact ⟨hkind.trans hflag.kind, hgroup.trans hflag.groupAs⟩
    · rwa [Usage.IsModel, hkind]

end Graph.Drafts

/-! ## Families that were resolved -/

theorem exists_text_of_readDraft {disk : Disk} {entities : EntityMap} {p : Path} {draft : Draft}
    (h : readDraft disk entities p = .ok draft) :
    ∃ text, disk.read p = .ok text ∧ Draft.read entities p text = .ok draft := by
  unfold readDraft at h
  split at h
  · cases h
  · next text htext =>
    split at h
    · cases h
    · next hread =>
      cases h
      exact ⟨text, htext, hread⟩

/-- Every declaration of a family that was resolved belongs to a document that drafts what is in its
    file. -/
theorem exists_drafts {disk : Disk} {entities : EntityMap} {p base : Path} {c c' : Cache}
    {tree : ImportTree} (hc : c.Faithful disk entities)
    (hr : (resolve disk entities p base).run.run c = (.ok tree, c'))
    (ha : (Graph.ofTree tree).Addressable) {a : Declaration}
    (hmem : a ∈ (Graph.ofTree tree).declarations) :
    ∃ d text root draft first, (Graph.ofTree tree).documents[a.owner.index]? = some d ∧
      a.owner = d.id ∧ d.HasText disk entities text root ∧
      (Graph.ofTree tree).Drafts d root draft first := by
  have harranged := (Graph.inOrder_ofTree ha).arranged
  have hu := Graph.isUnfolding_ofTree (unfolds_of_resolve hc hr).1 ha
  obtain ⟨d, hd⟩ := harranged.exists_owner hmem
  have hlt : a.owner.index < tree.walks.length :=
    hu.length_walks ▸ (Array.getElem?_eq_some_iff.1 hd).1
  obtain ⟨d', draft, source, hd', _, _, hread, hheader, hsource, _, hdeclarations, _⟩ :=
    hu.document (List.getElem?_eq_getElem hlt)
  rw [hd] at hd'
  cases hd'
  obtain ⟨text, htext, hdraft⟩ := exists_text_of_readDraft hread
  obtain ⟨root, hroot, _, _, _, horigin⟩ := Draft.origins_of_read hdraft
  have howner : a.owner = d.id := (Handle.ext (harranged.document_index hd)).symm
  exact ⟨d, text, root, draft, _, hd, howner, ⟨hsource ▸ htext, hroot⟩,
    ⟨Array.mem_of_getElem? hd, hdeclarations, Draft.wellFormed_of_read hdraft, horigin⟩⟩

end SchemaFamily
