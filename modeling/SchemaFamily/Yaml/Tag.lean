import SchemaFamily.Text.Number
import SchemaFamily.Yaml.Cursor

/-
  Tags. A tag names what kind of value a node is. It is written in full between angle brackets, or
  as a handle, which is short for the beginning of the name, with the rest after it. A line before
  a document tells what a handle is short for; two handles need no such line. The name is a
  sequence of octets, of which those that cannot be written as they are stand as a percent sign
  and two digits. A zero octet ends the name.
-/

namespace SchemaFamily.Yaml

/-- The octets of a text in ASCII. -/
def octets (cs : List Char) : List UInt8 := cs.map fun c => c.toNat.toUInt8

/-- The octets up to a zero octet. -/
def upToZero (os : List UInt8) : List UInt8 := os.takeWhile (· != 0)

/-- What kind of value a node is, by name. -/
structure Tag where
  name : List UInt8
deriving DecidableEq, Repr

namespace Tag

/-- The tag of a text in ASCII. -/
def ofText (s : String) : Tag := ⟨octets s.toList⟩

/-- No value. -/
def null : Tag := ofText "tag:yaml.org,2002:null"

/-- An integer. -/
def int : Tag := ofText "tag:yaml.org,2002:int"

/-- The tag that leaves the kind of a scalar open. -/
def nonspecific : Tag := ofText "!"

end Tag

/-- A tag as it is written: a handle, empty for a name in full, and the rest of the name. -/
structure WrittenTag where
  handle : String
  suffix : List UInt8
deriving DecidableEq, Repr

/-- What handles are short for. -/
abbrev Handles := List (String × List UInt8)

/-- The handles that need no line before the document. -/
def knownHandles : Handles :=
  [("!", octets "!".toList), ("!!", octets "tag:yaml.org,2002:".toList)]

/-- The tag that is written, when its handle is known. -/
def WrittenTag.resolve? (handles : Handles) (t : WrittenTag) : Option Tag :=
  if t.handle = "" then some ⟨t.suffix⟩
  else (handles.lookup t.handle).map fun start => ⟨start ++ t.suffix⟩

/-! ## Reading -/

/-- Characters of the names of anchors and handles. -/
def isNameChar (c : Char) : Bool := c.isAlphanum || c == '_' || c == '-'

/-- Characters that stand in a tag for themselves; brackets and commas only where it is written in
    full. -/
def isTagChar (full : Bool) (c : Char) : Bool :=
  isNameChar c ||
    [';', '/', '?', ':', '@', '&', '=', '+', '$', '.', '!', '~', '*', '\'', '(', ')'].contains c ||
    (full && [',', '[', ']'].contains c)

/-- How many octets follow one that begins a character. -/
def trailing? (octet : Nat) : Option Nat :=
  if octet < 0x80 then some 0
  else if 0xC0 ≤ octet ∧ octet < 0xE0 then some 1
  else if 0xE0 ≤ octet ∧ octet < 0xF0 then some 2
  else if 0xF0 ≤ octet ∧ octet < 0xF8 then some 3
  else none

/-- The octets of a tag, and the number of characters that they are written with. `due` octets of
    a character that percent signs began are still to come. -/
def tagOctets (full : Bool) (due : Nat) : List Char → Option (List UInt8 × Nat)
  | '%' :: a :: b :: later => do
    let octet := (← digitValue? 16 a) * 16 + (← digitValue? 16 b)
    let due ← if due = 0 then trailing? octet
      else if 0x80 ≤ octet ∧ octet < 0xC0 then some (due - 1)
      else none
    let (more, n) ← tagOctets full due later
    return (octet.toUInt8 :: more, n + 3)
  | c :: later =>
    if due ≠ 0 ∨ c = '%' then none
    else if isTagChar full c then do
      let (more, n) ← tagOctets full 0 later
      return (c.toNat.toUInt8 :: more, n + 1)
    else some ([], 0)
  | [] => if due = 0 then some ([], 0) else none

/-- The octets of a tag at a place, of which there is at least one, and the place after them. -/
def tagName? (full : Bool) (c : Cursor) : Option (List UInt8 × Cursor) := do
  let (name, n) ← tagOctets full 0 c.rest
  if n = 0 then none else return (upToZero name, c.move n)

/-- The handle between two signs, or the sign alone with what follows it, at a place, and the
    place after it. -/
def handle? (c : Cursor) : Option (String × List Char × Cursor) :=
  if c.rest.head? == some '!' then
    let (name, c) := (c.move 1).span isNameChar
    if c.rest.head? == some '!' then some ("!" ++ String.ofList name ++ "!", [], c.move 1)
    else some ("!", name, c)
  else none

/-- The tag at a place, and the place after it. -/
def WrittenTag.read? (c : Cursor) : Option (WrittenTag × Cursor) :=
  if "!<".toList.isPrefixOf c.rest then do
    let (name, c) ← tagName? true (c.move 2)
    if c.rest.head? == some '>' then return (⟨"", name⟩, c.move 1) else none
  else do
    let (handle, start, c) ← handle? c
    if handle ≠ "!" then
      let (suffix, c) ← tagName? false c
      return (⟨handle, suffix⟩, c)
    else
      let (more, n) ← tagOctets false 0 c.rest
      let suffix := upToZero (octets start ++ more)
      return (if suffix.isEmpty then ⟨"", Tag.nonspecific.name⟩ else ⟨handle, suffix⟩, c.move n)

example : WrittenTag.read? { rest := "!!null ~".toList } =
    some (⟨"!!", octets "null".toList⟩, ⟨" ~".toList, 6, 0, 6⟩) := by decide +kernel
example : (WrittenTag.resolve? knownHandles ⟨"!!", octets "null".toList⟩) = some Tag.null := by
  decide +kernel

end SchemaFamily.Yaml
