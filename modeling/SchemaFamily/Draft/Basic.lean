import SchemaFamily.Definition.Slot
import SchemaFamily.Disk.Path

/-
  Drafts. A draft is one document as it was read: its header, the files that it imports, and its
  definitions in the order in which they end in the text, so an inline definition stands before
  the one that uses it. Handles number the draft's own definitions.
-/

namespace SchemaFamily

/-- What a document says about itself. -/
structure Header where
  name : String
  source : Path := ⟨""⟩
  top : Option String := none
  root : Option String := none
  schemaName : Option String := none
  schemaVersion : Option String := none
  nameSpace : Option String := none
  remarks : Option String := none
  isAbstract : Bool := false
deriving DecidableEq, Repr

/-- A file that a document imports, as it names it. -/
structure Import where
  href : String
  position : Position
deriving DecidableEq, Repr

/-- A definition of a draft. -/
structure Drafted where
  scope : Scope
  definition : Definition
deriving DecidableEq, Repr

/-- One document as it was read. -/
structure Draft where
  header : Header
  imports : List Import := []
  definitions : List Drafted := []
deriving DecidableEq, Repr

/-- The definitions that can be used by name. -/
def Draft.globals (d : Draft) : List Definition :=
  (d.definitions.filter (·.scope == .everywhere)).map (·.definition)

end SchemaFamily
