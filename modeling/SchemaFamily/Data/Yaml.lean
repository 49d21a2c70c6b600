import SchemaFamily.Data.Basic
import SchemaFamily.Yaml.Scalar

/-
  Data as YAML in block style. Fields stand at the column of their record; the items of a list
  that is the value of a field stand at the column of the field. The first entry of a collection
  that is itself an item follows the dash on the same line. A variant is a tag in front of its
  payload, which then begins on a line of its own.
-/

namespace SchemaFamily

namespace YamlText

/-- What stands in front of a value: a key or a dash, its column, and whether a tag came after. -/
structure Place where
  column : Nat
  underKey : Bool
  tagged : Bool

/-- The place after the key of a field at a column. -/
def Place.key (column : Nat) : Place := ⟨column, true, false⟩

/-- The place after the dash of an item at a column. -/
def Place.dash (column : Nat) : Place := ⟨column, false, false⟩

/-- The column of the items of a list there. -/
def Place.itemColumn (p : Place) : Nat := if p.underKey then p.column else p.column + 2

/-- Entries at a column, each with its line end, below a place or after it on its line. -/
def Place.entries (p : Place) (column : Nat) (entries : List String) : String :=
  let margin := String.ofList (List.replicate column ' ')
  if p.underKey || p.tagged then "\n" ++ String.join (entries.map (margin ++ ·))
  else " " ++ margin.intercalate entries

mutual

/-- What follows a place, up to the end of its last line. -/
def write (p : Place) : Data → String
  | .null => " null\n"
  | .bool true => " true\n"
  | .bool false => " false\n"
  | .number n => s!" {n}\n"
  | .text content => " " ++ Yaml.scalar (p.column + 2) content
  | .list [] => " []\n"
  | .list items => p.entries p.itemColumn (writeItems p.itemColumn items)
  | .record [] => " \x7b\x7d\n"
  | .record fields => p.entries (p.column + 2) (writeFields (p.column + 2) fields)
  | .variant name payload => " !" ++ name ++ write { p with tagged := true } payload

/-- The items of a list at a column. -/
def writeItems (column : Nat) : List Data → List String
  | [] => []
  | item :: later => ("-" ++ write (.dash column) item) :: writeItems column later

/-- The fields of a record at a column. -/
def writeFields (column : Nat) : List (String × Data) → List String
  | [] => []
  | (name, value) :: later =>
    (name ++ ":" ++ write (.key column) value) :: writeFields column later

end

end YamlText

/-- The data as a YAML document. -/
def Data.yaml : Data → String
  | .list [] => "[]\n"
  | .list items => String.join (YamlText.writeItems 0 items)
  | .record fields => String.join (YamlText.writeFields 0 fields)
  | .variant name payload => "!" ++ name ++ YamlText.write ⟨0, true, true⟩ payload
  | .text content => Yaml.scalar 2 content
  | .null => "null\n"
  | .bool true => "true\n"
  | .bool false => "false\n"
  | .number n => s!"{n}\n"

end SchemaFamily
