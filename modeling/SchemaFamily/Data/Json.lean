import SchemaFamily.Data.Basic

/-
  Data as indented JSON. Every item and field stands on a line of its own, two spaces deeper than
  what holds it, and what is empty stays on its line. A variant is a record of one field. In a
  text only quotes, backslashes and control characters are escaped.
-/

namespace SchemaFamily

namespace JsonText

/-- The digit of a value below 16. -/
def hexDigit (n : Nat) : Char := Nat.digitChar n

/-- A character inside quotes. -/
def escape (c : Char) : String :=
  match c with
  | '"' => "\\\""
  | '\\' => "\\\\"
  | '\n' => "\\n"
  | '\r' => "\\r"
  | '\t' => "\\t"
  | '\x08' => "\\b"
  | '\x0c' => "\\f"
  | c =>
    if c.toNat < 0x20 then
      "\\u00" ++ String.ofList [hexDigit (c.toNat / 16), hexDigit (c.toNat % 16)]
    else c.toString

/-- A text in quotes. -/
def quoted (s : String) : String := "\"" ++ String.join (s.toList.map escape) ++ "\""

/-- The break before a line at `depth`. -/
def lineBreak (depth : Nat) : String := "\n" ++ String.ofList (List.replicate (2 * depth) ' ')

/-- Parts between brackets, each on a line of its own at `depth`. -/
def enclosed (left right : String) (depth : Nat) : List String → String
  | [] => left ++ right
  | parts =>
    left ++ lineBreak (depth + 1) ++ ("," ++ lineBreak (depth + 1)).intercalate parts ++
      lineBreak depth ++ right

mutual

/-- A value whose brackets stand at `depth`. -/
def write (depth : Nat) : Data → String
  | .null => "null"
  | .bool true => "true"
  | .bool false => "false"
  | .number n => toString n
  | .text content => quoted content
  | .list items => enclosed "[" "]" depth (writeItems (depth + 1) items)
  | .record fields => enclosed "\x7b" "\x7d" depth (writeFields (depth + 1) fields)
  | .variant name payload =>
    enclosed "\x7b" "\x7d" depth [quoted name ++ ": " ++ write (depth + 1) payload]

/-- The items of a list, each as a value at `depth`. -/
def writeItems (depth : Nat) : List Data → List String
  | [] => []
  | item :: later => write depth item :: writeItems depth later

/-- The fields of a record, each with its value at `depth`. -/
def writeFields (depth : Nat) : List (String × Data) → List String
  | [] => []
  | (name, value) :: later =>
    (quoted name ++ ": " ++ write depth value) :: writeFields depth later

end

end JsonText

/-- The data as indented JSON. -/
def Data.json (d : Data) : String := JsonText.write 0 d

end SchemaFamily
