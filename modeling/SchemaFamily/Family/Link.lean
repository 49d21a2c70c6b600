import SchemaFamily.Family.Pass
import SchemaFamily.Family.Walk

/-
  Linking. Every usage that refers to a definition by name is resolved to what its kind and name
  stand for in the document that owns it: the document's own globals come first, then those of its
  imports, depth first and in order. What another document owns becomes a dependency under the
  name. A usage that is resolved stays as it is, so linking again changes nothing.
-/

namespace SchemaFamily

/-- A usage whose name is still to be resolved. -/
structure Pending where
  slot : Slot
  kind : Kind
  name : String
  position : Position
deriving DecidableEq, Repr

/-- The usages of a definition that are to be resolved, in order. -/
def Definition.pending (d : Definition) : List Pending :=
  d.usages.filterMap fun (slot, u) =>
    u.pendingName?.map fun name => ⟨slot, u.kind, name, u.position⟩

/-- The site of a usage in a declaration of a document. -/
def Document.site (d : Document) (declaration : String) (position : Position) : Site :=
  ⟨d.header.source, position.line?, d.name, declaration⟩

namespace Graph

/-- The graph with the usage at a place changed by `f`. -/
def modifyUsage (g : Graph) (ref : UsageRef) (f : Usage → Usage) : Graph :=
  { g with declarations := g.declarations.modify ref.declaration.index fun d =>
      { d with definition := d.definition.modifyUsage ref.slot f } }

end Graph

/-- Resolves one usage of a declaration that `document` owns. -/
def linkUsage (document : DocumentId) (declaration : DeclarationId) (p : Pending) : Pass Nat := do
  match ← Pass.ask (·.lookup document p.kind p.name) with
  | none =>
    let owner ← Pass.ask (·.document document)
    let holder ← Pass.ask (·.declaration declaration)
    throw (.unresolved (owner.site holder.name p.position) p.kind p.name)
  | some target =>
    let found ← Pass.ask (·.declaration target)
    Pass.change fun g =>
      (g.registerDependency document found.owner p.name (.declaration target)).map (·.1)
    modify (·.modifyUsage ⟨declaration, p.slot⟩ (·.resolve target))
    return 1

/-- Resolves the usages of one declaration of a document; the number resolved. -/
def linkDeclaration (document : DocumentId) (declaration : DeclarationId) : Pass Nat := do
  let holder ← Pass.ask (·.declaration declaration)
  Pass.total (linkUsage document declaration) holder.definition.pending

/-- Resolves the usages of every declaration that a document owns; the number resolved. -/
def linkDocument (document : DocumentId) : Pass Nat := do
  let owner ← Pass.ask (·.document document)
  Pass.total (linkDeclaration document) owner.owned

/-- Resolves the usages of every document in order; the number resolved. -/
def link : Pass Nat := do
  let g ← get
  Pass.total linkDocument ((List.range g.documents.size).map .ofIndex)

end SchemaFamily
