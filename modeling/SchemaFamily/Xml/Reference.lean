import SchemaFamily.Text.Position
import SchemaFamily.Text.Number

/-
  Entity references. `&name;` stands for the value of a named entity, `&#n;` and `&#xn;` for the
  character of a code point. `expand` replaces each reference of a text once, from the left, and
  never reads a replacement again; the first bad reference decides, told with byte offsets.
-/

namespace SchemaFamily.Xml

/-! ## Named entities -/

/-- Values of named entities. The first value given for a name counts. -/
abbrev EntityMap := List (String × String)

namespace EntityMap

/-- Gives `name` a value, unless it has one. -/
def declare (entities : EntityMap) (name value : String) : EntityMap :=
  if (entities.lookup name).isSome then entities else entities ++ [(name, value)]

/-- Gives `name` a value in place of any earlier one. -/
def assign (entities : EntityMap) (name value : String) : EntityMap :=
  entities.filter (·.1 != name) ++ [(name, value)]

end EntityMap

/-- The entities that every document may name without declaring them. -/
def predefined : EntityMap :=
  [("lt", "<"), ("gt", ">"), ("amp", "&"), ("apos", "'"), ("quot", "\"")]

/-- The value of a named entity: one of `entities`, else a predefined one. -/
def EntityMap.resolve? (entities : EntityMap) (name : String) : Option String :=
  (entities.lookup name).or (predefined.lookup name)

/-! ## References -/

/-- Why a character reference names no character. -/
inductive CharacterFault where
  | sign
  | number (fault : NumberFault)
  | zero
  | noCodePoint (code : Nat)
deriving DecidableEq, Repr

/-- The wording of a fault. -/
def CharacterFault.message : CharacterFault → String
  | .sign => "unexpected number sign"
  | .number fault => fault.message
  | .zero => "0x0 character is not permitted in XML"
  | .noCodePoint code => s!"`{code}` is not a valid codepoint"

/-- Why a reference has no replacement; `start` and `stop` are byte offsets in the text. -/
inductive ReferenceFault where
  | unterminated (start stop : Nat)
  | character (fault : CharacterFault)
  | unknown (start stop : Nat) (name : String)
deriving DecidableEq, Repr

/-- The wording of a fault. -/
def ReferenceFault.message : ReferenceFault → String
  | .unterminated start stop =>
    s!"Error while escaping character at range {start}..{stop}: Cannot find ';' after '&'"
  | .character fault => s!"invalid character reference: {fault.message}"
  | .unknown start stop name => s!"at {start}..{stop}: unrecognized entity `{name}`"

/-- The character of a number read in `radix`. -/
def characterOfDigits (radix : Nat) (digits : List Char) : Except CharacterFault Char :=
  match digits with
  | '+' :: _ | '-' :: _ => .error .sign
  | digits =>
    match readUnsigned radix maxWord32 digits with
    | .error fault => .error (.number fault)
    | .ok code =>
      if code = 0 then .error .zero
      else if code.isValidChar then .ok (Char.ofNat code)
      else .error (.noCodePoint code)

/-- The character that `&#digits;` stands for; after an `x` the digits are hexadecimal. -/
def characterOfReference : List Char → Except CharacterFault Char
  | 'x' :: digits => characterOfDigits 16 digits
  | digits => characterOfDigits 10 digits

/-- The replacement of the reference `&name;` that starts at byte `start`. -/
def replacement (entities : EntityMap) (start : Nat) (name : List Char) :
    Except ReferenceFault String :=
  match name with
  | '#' :: digits =>
    match characterOfReference digits with
    | .error fault => .error (.character fault)
    | .ok c => .ok (String.singleton c)
  | name =>
    match entities.resolve? (String.ofList name) with
    | some value => .ok value
    | none =>
      .error (.unknown (start + 1) (start + 1 + byteLength name) (String.ofList name))

/-- No character of a reference's name. -/
def endsReferenceName (c : Char) : Bool := c == '&' || c == ';'

/-- The rest `cs` of a text of `total` bytes with its references replaced. -/
def expandFrom (entities : EntityMap) (total : Nat) (cs : List Char) :
    Except ReferenceFault String :=
  let plain := String.ofList (cs.takeWhile (· != '&'))
  match _h : cs.dropWhile (· != '&') with
  | [] => .ok plain
  | amp :: inner =>
    let start := total - byteLength (amp :: inner)
    match _h' : inner.dropWhile (!endsReferenceName ·) with
    | ';' :: later =>
      match replacement entities start (inner.takeWhile (!endsReferenceName ·)) with
      | .error fault => .error fault
      | .ok value =>
        match expandFrom entities total later with
        | .error fault => .error fault
        | .ok more => .ok (plain ++ value ++ more)
    | _ => .error (.unterminated start total)
termination_by cs.length
decreasing_by
  have h₁ := (List.dropWhile_sublist (p := (· != '&')) (l := cs)).length_le
  have h₂ := (List.dropWhile_sublist (p := (!endsReferenceName ·)) (l := inner)).length_le
  rw [_h] at h₁
  rw [_h'] at h₂
  simp only [List.length_cons] at h₁ h₂
  omega

/-- `cs` with its references replaced. -/
def expand (entities : EntityMap) (cs : List Char) : Except ReferenceFault String :=
  expandFrom entities (byteLength cs) cs

end SchemaFamily.Xml
