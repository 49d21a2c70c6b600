import SchemaFamily.Data.Json
import SchemaFamily.Data.Yaml
import SchemaFamily.Report.Model

/-
  How families are written. The summary tells names only: the family's root with the sizes of its
  collections, and each document with what it declares, imports, depends on and reconciles. JSON
  and YAML tell everything. Several families are summaries with an empty line between them, or a
  list of records of a source and a graph.
-/

namespace SchemaFamily

/-- The forms in which families are written. -/
inductive Format where
  | summary
  | json
  | yaml
deriving DecidableEq, Repr, Inhabited

/-- The form of a keyword. -/
def Format.ofKeyword? : String → Option Format
  | "summary" => some .summary
  | "json" => some .json
  | "yaml" => some .yaml
  | _ => none

/-! ## Summaries -/

/-- A labelled line of names, or nothing when there are none. -/
def nameLine (label : String) (names : List String) : String :=
  if names.isEmpty then "" else s!"    {label}: " ++ ", ".intercalate names ++ "\n"

/-- How a multiplexer is told in a summary. -/
def Multiplexer.summary (m : Multiplexer) : String :=
  match m.mode with
  | .byKey indexFlag => s!"{m.name} [by key: {indexFlag}]"
  | .singletonOrArray => s!"{m.name} [singleton or array]"

namespace Graph

/-- The names of some declarations. -/
def declarationNames (g : Graph) (ids : List DeclarationId) : Except Dangling (List String) :=
  ids.mapM fun id => (g.declaration id).map (·.name)

/-- The names of some documents. -/
def documentNames (g : Graph) (ids : List DocumentId) : Except Dangling (List String) :=
  ids.mapM fun id => (g.document id).map (·.name)

/-- How a dependency is told in a summary: its name and the document that owns it. -/
def dependencySummary (g : Graph) (e : DependencyEntry) : Except Dangling String := do
  let owner ← g.document (← g.dependencyOwner e.dependency)
  return s!"{e.name} -> {owner.name}"

/-- How a document is told in a summary. -/
def documentSummary (g : Graph) (d : Document) : Except Dangling String := do
  let assemblies ← g.declarationNames d.assemblies
  let fields ← g.declarationNames d.fields
  let flags ← g.declarationNames d.flags
  let imports ← g.documentNames d.imported
  let dependencies ← d.dependencies.entries.mapM g.dependencySummary
  let multiplexers ← d.multiplexers.mapM fun id => (g.multiplexer id).map (·.summary)
  return s!"  {d.name} ({d.header.source.text})\n" ++ nameLine "assemblies" assemblies ++
    nameLine "fields" fields ++ nameLine "flags" flags ++ nameLine "imports" imports ++
    nameLine "dependencies" dependencies ++ nameLine "multiplexers" multiplexers

/-- The summary of a family; nothing for a graph without documents. -/
def summary (g : Graph) : Except Dangling String := do
  match g.documents[0]? with
  | none => return ""
  | some root =>
    let documents ← g.documents.toList.mapM g.documentSummary
    return s!"{root.name}: {g.documents.size} documents, {g.declarations.size} declarations, " ++
      s!"{g.multiplexers.size} multiplexers\n" ++ String.join documents

/-- A family in a form. -/
def render (g : Graph) : Format → Except Dangling String
  | .summary => g.summary
  | .json => .ok (toData g).json
  | .yaml => .ok (toData g).yaml

end Graph

/-- Several families, each with its source, in a form. -/
def renderAll (families : List (Path × Graph)) (format : Format) : Except Dangling String :=
  let list := families.map fun (source, g) =>
    Data.record [("source", toData source), ("graph", toData g)]
  match format with
  | .summary => do
    let summaries ← families.mapM fun (_, g) => g.summary
    return "\n".intercalate summaries
  | .json => .ok (Data.list list).json
  | .yaml => .ok (Data.list list).yaml

end SchemaFamily
