import SchemaFamily.Data.Basic
import SchemaFamily.Text.Number

/-
  Data from JSON. A text is cut into tokens, and the tokens are read one after the other with a
  stack of the lists and records that are open. Only natural numbers of 64 bits are numbers here,
  and no record is a variant. Names may be repeated in a record; both fields are kept in order.
-/

namespace SchemaFamily

namespace JsonText

/-- A piece of a JSON text. -/
inductive Token where
  | openList
  | closeList
  | openRecord
  | closeRecord
  | comma
  | colon
  | text (content : String)
  | plain (value : Data)
deriving Repr

/-! ## Tokens -/

/-- The value of four hexadecimal digits. -/
def unit? (a b c d : Char) : Option Nat :=
  [a, b, c, d].foldlM (fun n x => (digitValue? 16 x).map (n * 16 + ·)) 0

/-- The character of an escape of one letter. -/
def escaped? : Char → Option Char
  | '"' => some '"'
  | '\\' => some '\\'
  | '/' => some '/'
  | 'b' => some '\x08'
  | 'f' => some '\x0c'
  | 'n' => some '\n'
  | 'r' => some '\r'
  | 't' => some '\t'
  | _ => none

/-- The first half of a pair of units. -/
def isHigh (n : Nat) : Bool := 0xD800 ≤ n && n < 0xDC00

/-- The second half of a pair of units. -/
def isLow (n : Nat) : Bool := 0xDC00 ≤ n && n < 0xE000

/-- A text up to its closing quote, and what follows it. A unit that is half of a pair is read
    together with the other half. -/
def textFrom : List Char → Option (List Char × List Char)
  | [] => none
  | '"' :: later => some ([], later)
  | '\\' :: 'u' :: a :: b :: c :: d :: later => do
    let n ← unit? a b c d
    if isLow n then none
    else if isHigh n then
      match later with
      | '\\' :: 'u' :: e :: f :: g :: h :: later => do
        let m ← unit? e f g h
        if isLow m then
          let (content, rest) ← textFrom later
          return (Char.ofNat (0x10000 + (n - 0xD800) * 0x400 + (m - 0xDC00)) :: content, rest)
        else none
      | _ => none
    else do
      let (content, rest) ← textFrom later
      return (Char.ofNat n :: content, rest)
  | '\\' :: c :: later => do
    let x ← escaped? c
    let (content, rest) ← textFrom later
    return (x :: content, rest)
  | c :: later =>
    if c == '\\' || c.toNat < 0x20 then none
    else do
      let (content, rest) ← textFrom later
      return (c :: content, rest)

/-- Characters that stand between tokens. -/
def isGap (c : Char) : Bool := c == ' ' || c == '\n' || c == '\t' || c == '\r'

/-- Characters that a number or a word is made of. -/
def isWord (c : Char) : Bool := c.isAlphanum || c == '+' || c == '-' || c == '.'

/-- The value of a word: a natural number without needless zeros, a truth value, or none. -/
def wordValue? (word : List Char) : Option Data :=
  match String.ofList word with
  | "null" => some .null
  | "true" => some (.bool true)
  | "false" => some (.bool false)
  | _ =>
    match word with
    | '0' :: _ :: _ => none
    | '+' :: _ => none
    | word => (readUnsigned 10 maxWord64 word).toOption.map .number

/-- The token of a sign. -/
def sign? : Char → Option Token
  | '[' => some .openList
  | ']' => some .closeList
  | '{' => some .openRecord
  | '}' => some .closeRecord
  | ',' => some .comma
  | ':' => some .colon
  | _ => none

/-- The tokens of a text, at most `steps` of them with the gaps. -/
def tokensFrom : (steps : Nat) → List Char → Option (List Token)
  | _, [] => some []
  | 0, _ :: _ => none
  | steps + 1, c :: later =>
    if isGap c then tokensFrom steps later
    else if c = '"' then do
      let (content, rest) ← textFrom later
      return .text (String.ofList content) :: (← tokensFrom steps rest)
    else
      match sign? c with
      | some token => return token :: (← tokensFrom steps later)
      | none => do
        let value ← wordValue? ((c :: later).takeWhile isWord)
        return .plain value :: (← tokensFrom steps (later.dropWhile isWord))

/-- The tokens of a text. -/
def tokens? (s : String) : Option (List Token) := tokensFrom s.length s.toList

/-! ## Values -/

/-- A list or record that is open, what it holds newest first; a field may wait for its value. -/
inductive Open where
  | list (items : List Data)
  | record (fields : List (String × Data))
  | field (fields : List (String × Data)) (name : String)

/-- What may come next. -/
inductive Next where
  | value
  | firstItem
  | firstName
  | name
  | colon
  | separator
  | nothing (result : Data)

/-- What has been read: the lists and records that are open, innermost first, and what may come
    next. -/
structure Progress where
  opened : List Open
  next : Next

namespace Progress

/-- What has been read after one more value. -/
def complete (opened : List Open) (value : Data) : Option Progress :=
  match opened with
  | [] => some ⟨[], .nothing value⟩
  | .list items :: outer => some ⟨.list (value :: items) :: outer, .separator⟩
  | .field fields name :: outer => some ⟨.record ((name, value) :: fields) :: outer, .separator⟩
  | .record _ :: _ => none

/-- What has been read after a token that begins a value. -/
def begin (p : Progress) : Token → Option Progress
  | .openList => some ⟨.list [] :: p.opened, .firstItem⟩
  | .openRecord => some ⟨.record [] :: p.opened, .firstName⟩
  | .text content => complete p.opened (.text content)
  | .plain value => complete p.opened value
  | _ => none

/-- What has been read after a closing bracket. -/
def close (p : Progress) : Token → Option Progress
  | .closeList =>
    match p.opened with
    | .list items :: outer => complete outer (.list items.reverse)
    | _ => none
  | .closeRecord =>
    match p.opened with
    | .record fields :: outer => complete outer (.record fields.reverse)
    | _ => none
  | _ => none

/-- What has been read after the name of a field. -/
def named (p : Progress) (name : String) : Option Progress :=
  match p.opened with
  | .record fields :: outer => some ⟨.field fields name :: outer, .colon⟩
  | _ => none

/-- What has been read after one more token. -/
def step (p : Progress) (token : Token) : Option Progress :=
  match p.next, token with
  | .value, token => p.begin token
  | .firstItem, .closeList => p.close .closeList
  | .firstItem, token => p.begin token
  | .firstName, .closeRecord => p.close .closeRecord
  | .firstName, .text name => p.named name
  | .name, .text name => p.named name
  | .colon, .colon => some { p with next := .value }
  | .separator, .comma =>
    match p.opened with
    | .list _ :: _ => some { p with next := .value }
    | _ => some { p with next := .name }
  | .separator, token => p.close token
  | _, _ => none

/-- The value, when nothing is left open. -/
def result? (p : Progress) : Option Data :=
  match p.next with
  | .nothing value => some value
  | _ => none

end Progress

end JsonText

/-- The data that a JSON text tells. -/
def Data.ofJson? (s : String) : Option Data := do
  let tokens ← JsonText.tokens? s
  let p ← tokens.foldlM JsonText.Progress.step ⟨[], .value⟩
  p.result?

end SchemaFamily
