import SchemaFamily.Proofs.Definition.Slots
import SchemaFamily.Family.Graph

/-
  Outlines. The outline of a graph is what no later pass changes: its declarations but for what
  their names are resolved to, and its documents but for their imports, dependencies and
  multiplexers. What a document declares and what a name stands for in it alone can be told from
  the outline (`SameOutline.declarationsOf`, `SameOutline.firstGlobal?`), and so can the number of
  handles needed (`SameOutline.addressable`). The core of a graph is what reconciling does not
  change: its declarations, and its documents but for their dependencies and multiplexers
  (`SameCore`).
-/

namespace SchemaFamily

/-! ## Declarations of a document -/

/-- The declaration can be used by name, has the kind and has the name. -/
def Declaration.isGlobal (kind : Kind) (name : String) (d : Declaration) : Bool :=
  d.scope == .everywhere && d.kind == kind && d.name == name

theorem Declaration.isGlobal_iff {kind : Kind} {name : String} {d : Declaration} :
    d.isGlobal kind name = true ↔ d.scope = .everywhere ∧ d.kind = kind ∧ d.name = name := by
  simp [isGlobal, and_assoc]

namespace Graph

/-- Every document and every declaration has a handle of its own. A handle is a 32-bit number and
    those past the last share it, so nothing can be told of a family with more of them. -/
def Addressable (g : Graph) : Prop :=
  g.documents.size ≤ maxIndex + 1 ∧ g.declarations.size ≤ maxIndex + 1

instance (g : Graph) : Decidable g.Addressable := inferInstanceAs (Decidable (_ ∧ _))

/-- The declarations that a document owns, in the order in which they were read. -/
def declarationsOf (g : Graph) (document : DocumentId) : List Declaration :=
  g.declarations.toList.filter (·.owner == document)

/-- The first global declaration of a kind and a name that a document owns. -/
def firstGlobal? (g : Graph) (kind : Kind) (name : String) (document : DocumentId) :
    Option Declaration :=
  (g.declarationsOf document).find? (·.isGlobal kind name)

end Graph

/-! ## Outlines -/

theorem map_modify_of_same {α β : Type} {f : α → α} {p : α → β} (same : ∀ a, p (f a) = p a)
    (as : Array α) (i : Nat) : (as.modify i f).map p = as.map p := by
  refine Array.ext_getElem? fun k => ?_
  rw [Array.getElem?_map, Array.getElem?_map, Array.getElem?_modify]
  split
  · rw [Option.map_map, show p ∘ f = p from funext same]
  · rfl

/-- The usage with its name, if it has one, not resolved. -/
def Usage.forget (u : Usage) : Usage :=
  match u.target with
  | .reference name _ => { u with target := .reference name none }
  | .inline _ => u

theorem Usage.forget_resolve (u : Usage) (t : DeclarationId) : (u.resolve t).forget = u.forget := by
  rcases u with ⟨kind, ⟨name, _ | _⟩ | declaration⟩ <;> rfl

/-- What a declaration is apart from what its names are resolved to. -/
def Declaration.outline (d : Declaration) : Declaration :=
  { d with definition := d.definition.mapUsages Usage.forget }

/-- What a document is apart from what it is given after it was read. -/
def Document.outline (d : Document) : Document :=
  { d with imported := [], dependencies := {}, multiplexers := [] }

namespace Graph

/-- The documents and the declarations of the graphs have the same outlines. -/
structure SameOutline (g g' : Graph) : Prop where
  documents : g.documents.map Document.outline = g'.documents.map Document.outline
  declarations : g.declarations.map Declaration.outline = g'.declarations.map Declaration.outline

namespace SameOutline

variable {g g' g'' : Graph}

theorem refl (g : Graph) : g.SameOutline g := ⟨rfl, rfl⟩

theorem symm (h : g.SameOutline g') : g'.SameOutline g := ⟨h.documents.symm, h.declarations.symm⟩

theorem trans (h : g.SameOutline g') (h' : g'.SameOutline g'') : g.SameOutline g'' :=
  ⟨h.documents.trans h'.documents, h.declarations.trans h'.declarations⟩

theorem size_documents (h : g.SameOutline g') : g.documents.size = g'.documents.size := by
  simpa using congrArg Array.size h.documents

theorem size_declarations (h : g.SameOutline g') : g.declarations.size = g'.declarations.size := by
  simpa using congrArg Array.size h.declarations

theorem addressable (h : g.SameOutline g') (ha : g.Addressable) : g'.Addressable := by
  rw [Addressable, ← h.size_documents, ← h.size_declarations]
  exact ha

theorem exists_document (h : g.SameOutline g') {i : Nat} {d : Document}
    (hd : g.documents[i]? = some d) :
    ∃ d', g'.documents[i]? = some d' ∧ d'.outline = d.outline := by
  have := congrArg (·[i]?) h.documents
  simp only [Array.getElem?_map, hd, Option.map_some] at this
  exact Option.map_eq_some_iff.1 this.symm

theorem exists_declaration (h : g.SameOutline g') {i : Nat} {d : Declaration}
    (hd : g.declarations[i]? = some d) :
    ∃ d', g'.declarations[i]? = some d' ∧ d'.outline = d.outline := by
  have := congrArg (·[i]?) h.declarations
  simp only [Array.getElem?_map, hd, Option.map_some] at this
  exact Option.map_eq_some_iff.1 this.symm

end SameOutline

end Graph

/-! ## Cores -/

/-- What a document is apart from its dependencies and multiplexers. -/
def Document.core (d : Document) : Document := { d with dependencies := {}, multiplexers := [] }

namespace Graph

/-- The graphs have the same declarations, and the same documents but for dependencies and
    multiplexers. -/
structure SameCore (g g' : Graph) : Prop where
  documents : g.documents.map Document.core = g'.documents.map Document.core
  declarations : g'.declarations = g.declarations

namespace SameCore

variable {g g' g'' : Graph}

theorem refl (g : Graph) : g.SameCore g := ⟨rfl, rfl⟩

theorem trans (h : g.SameCore g') (h' : g'.SameCore g'') : g.SameCore g'' :=
  ⟨h.documents.trans h'.documents, h'.declarations.trans h.declarations⟩

theorem sameOutline (h : g.SameCore g') : g.SameOutline g' := by
  refine ⟨?_, by rw [h.declarations]⟩
  have houtline : Document.outline = Document.outline ∘ Document.core := rfl
  rw [houtline, ← Array.map_map, h.documents, Array.map_map]

theorem declaration_eq (h : g.SameCore g') : g'.declaration = g.declaration := by
  funext id
  rw [declaration, declaration, h.declarations]

/-- The graphs have documents of the same core at a place, or neither has one. -/
theorem document_cases (h : g.SameCore g') (i : Nat) :
    (g.documents[i]? = none ∧ g'.documents[i]? = none) ∨
      ∃ d d', g.documents[i]? = some d ∧ g'.documents[i]? = some d' ∧ d'.core = d.core := by
  have hi := congrArg (·[i]?) h.documents
  simp only [Array.getElem?_map] at hi
  cases hd : g.documents[i]? with
  | none =>
    rw [hd] at hi
    exact .inl ⟨rfl, Option.map_eq_none_iff.1 hi.symm⟩
  | some d =>
    rw [hd] at hi
    obtain ⟨d', hd', he⟩ := Option.map_eq_some_iff.1 hi.symm
    exact .inr ⟨d, d', rfl, hd', he⟩

end SameCore

end Graph

namespace Declaration

@[simp]
theorem id_outline (d : Declaration) : d.outline.id = d.id := rfl

@[simp]
theorem owner_outline (d : Declaration) : d.outline.owner = d.owner := rfl

@[simp]
theorem scope_outline (d : Declaration) : d.outline.scope = d.scope := rfl

@[simp]
theorem name_outline (d : Declaration) : d.outline.name = d.name := rfl

@[simp]
theorem kind_outline (d : Declaration) : d.outline.kind = d.kind := by
  simp [outline, kind, Definition.mapUsages_eq_mapSlots]

@[simp]
theorem isGlobal_outline (kind : Kind) (name : String) (d : Declaration) :
    d.outline.isGlobal kind name = d.isGlobal kind name := by
  simp [isGlobal]

variable {d d' : Declaration}

theorem id_of_outline (h : d'.outline = d.outline) : d'.id = d.id := congrArg (·.id) h

theorem owner_of_outline (h : d'.outline = d.outline) : d'.owner = d.owner := congrArg (·.owner) h

theorem scope_of_outline (h : d'.outline = d.outline) : d'.scope = d.scope := congrArg (·.scope) h

theorem kind_of_outline (h : d'.outline = d.outline) : d'.kind = d.kind := by
  rw [← kind_outline d', h, kind_outline]

end Declaration

namespace Document

variable {d d' : Document}

theorem id_of_outline (h : d'.outline = d.outline) : d'.id = d.id := congrArg (·.id) h

theorem owned_of_outline (h : d'.outline = d.outline) : d'.owned = d.owned := congrArg (·.owned) h

theorem globals_of_outline (h : d'.outline = d.outline) : d'.globals = d.globals :=
  congrArg (·.globals) h

end Document

namespace Graph

variable {g g' : Graph}

theorem SameOutline.declarationsOf (h : g.SameOutline g') (document : DocumentId) :
    (g.declarationsOf document).map Declaration.outline =
      (g'.declarationsOf document).map Declaration.outline := by
  have := congrArg (fun ds => ds.toList.filter (·.owner == document)) h.declarations
  simpa only [Array.toList_map, List.filter_map, Function.comp_def, Declaration.owner_outline,
    Graph.declarationsOf] using this

theorem SameOutline.firstGlobal? (h : g.SameOutline g') (kind : Kind) (name : String)
    (document : DocumentId) :
    (g.firstGlobal? kind name document).map Declaration.outline =
      (g'.firstGlobal? kind name document).map Declaration.outline := by
  have := congrArg (List.find? (·.isGlobal kind name))
    (h.declarationsOf document)
  simpa only [List.find?_map, Function.comp_def, Graph.firstGlobal?,
    Declaration.isGlobal_outline] using this

theorem SameOutline.firstGlobal?_id (h : g.SameOutline g') (kind : Kind) (name : String)
    (document : DocumentId) :
    (g.firstGlobal? kind name document).map (·.id) =
      (g'.firstGlobal? kind name document).map (·.id) := by
  have := congrArg (Option.map (·.id)) (h.firstGlobal? kind name document)
  simpa only [Option.map_map, Function.comp_def, Declaration.id_outline] using this

end Graph

end SchemaFamily
