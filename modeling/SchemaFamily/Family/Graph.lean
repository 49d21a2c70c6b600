import SchemaFamily.Draft.Basic
import SchemaFamily.Family.Globals
import SchemaFamily.Family.Dependency
import SchemaFamily.Family.Multiplexer

/-
  The graph of a family. Documents, declarations and multiplexers are numbered in the order in
  which they were added and are referred to by handle; each declaration and each multiplexer is
  owned by one document. A handle that numbers nothing is told as a `Dangling`. Adding a draft
  shifts the handles of its inline usages by the number of declarations there were before.
-/

namespace SchemaFamily

/-- A declaration: a definition with its number, its document and its scope. -/
structure Declaration where
  id : DeclarationId
  owner : DocumentId
  scope : Scope
  definition : Definition
deriving DecidableEq, Repr

/-- The declaration's name. -/
def Declaration.name (d : Declaration) : String := d.definition.name

/-- The declaration's kind. -/
def Declaration.kind (d : Declaration) : Kind := d.definition.kind

/-- A document of a family. -/
structure Document where
  id : DocumentId
  header : Header
  imports : List Import := []
  assemblies : List DeclarationId := []
  fields : List DeclarationId := []
  flags : List DeclarationId := []
  inline : List DeclarationId := []
  imported : List DocumentId := []
  dependencies : Dependencies := {}
  multiplexers : List MultiplexerId := []
  globals : Globals := {}
deriving DecidableEq, Repr

namespace Document

/-- The document's name. -/
def name (d : Document) : String := d.header.name

/-- The declarations that the document owns: by kind, the inline ones last. -/
def owned (d : Document) : List DeclarationId := d.assemblies ++ d.fields ++ d.flags ++ d.inline

/-- The document with a declaration of its own added to the list of its kind and, unless it is
    inline, to its globals. -/
def adopt (d : Document) (declaration : Declaration) : Document :=
  match declaration.scope, declaration.kind with
  | .inline, _ => { d with inline := d.inline ++ [declaration.id] }
  | .everywhere, kind =>
    let d := { d with globals := d.globals.register kind declaration.name declaration.id }
    match kind with
    | .assembly => { d with assemblies := d.assemblies ++ [declaration.id] }
    | .field => { d with fields := d.fields ++ [declaration.id] }
    | .flag => { d with flags := d.flags ++ [declaration.id] }

end Document

/-- The documents, declarations and multiplexers of a family. `multiplexerNames` and
    `multiplexerUsages` tell which multiplexer a name and a usage stand for; the newest entry
    comes first and counts. -/
structure Graph where
  documents : Array Document := #[]
  declarations : Array Declaration := #[]
  multiplexers : Array Multiplexer := #[]
  multiplexerNames : List (String × MultiplexerId) := []
  multiplexerUsages : List (UsageRef × MultiplexerId) := []
deriving DecidableEq, Repr, Inhabited

/-- A handle that numbers nothing, or imports that lead back to a document on the way. -/
inductive Dangling where
  | document (id : DocumentId)
  | declaration (id : DeclarationId)
  | multiplexer (id : MultiplexerId)
  | circular (id : DocumentId)
deriving DecidableEq, Repr

namespace Graph

/-! ## Looking up -/

/-- The document of a handle. -/
def document (g : Graph) (id : DocumentId) : Except Dangling Document :=
  match g.documents[id.index]? with
  | some d => .ok d
  | none => .error (.document id)

/-- The declaration of a handle. -/
def declaration (g : Graph) (id : DeclarationId) : Except Dangling Declaration :=
  match g.declarations[id.index]? with
  | some d => .ok d
  | none => .error (.declaration id)

/-- The multiplexer of a handle. -/
def multiplexer (g : Graph) (id : MultiplexerId) : Except Dangling Multiplexer :=
  match g.multiplexers[id.index]? with
  | some m => .ok m
  | none => .error (.multiplexer id)

/-- The first document of the family. -/
def root? (g : Graph) : Option DocumentId :=
  if g.documents.isEmpty then none else some (.ofIndex 0)

/-- The usage at a slot of a declaration. -/
def usage? (g : Graph) (ref : UsageRef) : Option Usage :=
  g.declarations[ref.declaration.index]?.bind (·.definition.usage? ref.slot)

/-- The multiplexer that a name stands for. -/
def multiplexerNamed? (g : Graph) (name : String) : Option MultiplexerId :=
  g.multiplexerNames.lookup name

/-- The multiplexer that represents a usage. -/
def multiplexerFor? (g : Graph) (ref : UsageRef) : Option MultiplexerId :=
  g.multiplexerUsages.lookup ref

/-- The document may be the root of a text: one of its assemblies names a root element, or is the
    one that the header calls the top. -/
def containsRootElement (g : Graph) (id : DocumentId) : Except Dangling Bool := do
  let d ← g.document id
  d.assemblies.anyM fun assembly => do
    let declaration ← g.declaration assembly
    return declaration.definition.body.rootName.isSome || d.header.top == some declaration.name

/-! ## Adding -/

/-- The graph with `document` changed by `f`. -/
def modifyDocument (g : Graph) (id : DocumentId) (f : Document → Document) :
    Except Dangling Graph :=
  match g.documents[id.index]? with
  | some _ => .ok { g with documents := g.documents.modify id.index f }
  | none => .error (.document id)

/-- The declarations of a draft when they are numbered from `first` on. -/
def placed (owner : DocumentId) (first : Nat) (definitions : List Drafted) : List Declaration :=
  definitions.zipIdx.map fun (drafted, place) =>
    { id := .ofIndex (first + place), owner, scope := drafted.scope,
      definition := drafted.definition.rebase first }

/-- The graph with a draft added as its last document, and the document's handle. -/
def insert (g : Graph) (draft : Draft) : Graph × DocumentId :=
  let id := .ofIndex g.documents.size
  let declarations := placed id g.declarations.size draft.definitions
  let document := declarations.foldl Document.adopt
    { id, header := draft.header, imports := draft.imports }
  ({ g with
      documents := g.documents.push document
      declarations := g.declarations ++ declarations.toArray }, id)

/-- The graph with `child` among the imports of `parent`, if there is such a document. -/
def attach (g : Graph) (parent child : DocumentId) : Graph :=
  { g with documents := g.documents.modify parent.index fun d =>
      { d with imported := d.imported ++ [child] } }

/-- Records that `parent` imports `child`. -/
def addImport (g : Graph) (parent child : DocumentId) : Except Dangling Graph :=
  (g.document parent).map fun _ => g.attach parent child

/-! ## Dependencies -/

/-- The namespace in which a dependency is named. -/
def dependencyNamespace (g : Graph) : Dependency → Except Dangling Namespace
  | .declaration id => (g.declaration id).map fun d => .declaration d.kind
  | .multiplexer _ => .ok .multiplexer

/-- The document that owns a dependency. -/
def dependencyOwner (g : Graph) : Dependency → Except Dangling DocumentId
  | .declaration id => (g.declaration id).map (·.owner)
  | .multiplexer id => (g.multiplexer id).map (·.owner)

/-- Registers that `document` depends on something that `owner` owns, unless it is the owner
    itself. Tells whether the dependency is new. -/
def registerDependency (g : Graph) (document owner : DocumentId) (name : String)
    (dependency : Dependency) : Except Dangling (Graph × Bool) :=
  if owner = document then .ok (g, false)
  else do
    let nameSpace ← g.dependencyNamespace dependency
    let d ← g.document document
    let g ← g.modifyDocument document fun d =>
      { d with dependencies := d.dependencies.register nameSpace name dependency }
    return (g, !d.dependencies.contains nameSpace name)

/-- Documents with their names. One alone is compared with no other, so it is not looked up. -/
def named (g : Graph) : List DocumentId → Except Dangling (List (DocumentId × String))
  | [] => return []
  | [single] => return [(single, "")]
  | ids => ids.mapM fun id => (g.document id).map fun d => (id, d.name)

/-- The order of documents with their names: by name, and by handle where names are equal. -/
def notBehind (a b : DocumentId × String) : Bool :=
  a.2 < b.2 ∨ a.2 = b.2 ∧ a.1.index ≤ b.1.index

/-- The documents that own what `id` depends on, in order of names and then handles. -/
def importedDependencies (g : Graph) (id : DocumentId) : Except Dangling (List DocumentId) := do
  let d ← g.document id
  let owners ← d.dependencies.entries.mapM fun e => g.dependencyOwner e.dependency
  let named ← g.named owners
  return ((named.mergeSort notBehind).map (·.1)).eraseReps

/-! ## Multiplexers -/

/-- Lets a usage be represented by a multiplexer, unless it already is by one. -/
def bindUsage (g : Graph) (ref : UsageRef) (id : MultiplexerId) : Graph :=
  if (g.multiplexerFor? ref).isSome then g
  else { g with multiplexerUsages := (ref, id) :: g.multiplexerUsages }

/-- Adds the multiplexer that `build` makes of the next handle. Its name and its usage stand for
    it from then on, even if its owner turns out not to exist. -/
def addMultiplexer (g : Graph) (build : MultiplexerId → Multiplexer) :
    Graph × Except Dangling MultiplexerId :=
  let id := .ofIndex g.multiplexers.size
  let m := build id
  let g := { g with
    multiplexerNames := (m.name, id) :: g.multiplexerNames
    multiplexerUsages := (m.usage, id) :: g.multiplexerUsages }
  match g.modifyDocument m.owner fun d => { d with multiplexers := d.multiplexers ++ [id] } with
  | .error dangling => (g, .error dangling)
  | .ok g => ({ g with multiplexers := g.multiplexers.push m }, .ok id)

/-- Puts the multiplexers of a document in order of their names. -/
def sortMultiplexers (g : Graph) (id : DocumentId) : Except Dangling Graph := do
  let d ← g.document id
  let named ← match d.multiplexers with
    | [] => pure []
    | [single] => pure [(single, "")]
    | ids => ids.mapM fun id => (g.multiplexer id).map fun m => (id, m.name)
  g.modifyDocument id fun d =>
    { d with multiplexers := (named.mergeSort (fun a b => a.2 ≤ b.2)).map (·.1) }

end Graph

end SchemaFamily
