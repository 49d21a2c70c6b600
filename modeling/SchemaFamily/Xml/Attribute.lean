import SchemaFamily.Xml.Reference

/-
  Attributes of a tag. The body of a tag is its name up to the first space and then attributes
  `key = "value"`; `attributesOf` reads them from the left, and what it could read before a fault
  comes with the fault, because each value is expanded before the next key is looked at. Faults
  are told with byte offsets into the body.
-/

namespace SchemaFamily.Xml

/-- The blanks of markup: space, tab, carriage return and line feed. -/
def isSpace (c : Char) : Bool := c == ' ' || c == '\t' || c == '\r' || c == '\n'

/-- Why a tag's attributes cannot be read. -/
inductive AttributeFault where
  | expectedEquals (offset : Nat)
  | duplicated (offset previous : Nat)
  | expectedValue (offset : Nat)
  | unquoted (offset : Nat)
  | unclosedQuote (offset : Nat) (quote : Char)
deriving DecidableEq, Repr

/-- The wording of a fault. -/
def AttributeFault.message : AttributeFault → String
  | .expectedEquals offset =>
    s!"position {offset}: attribute key must be directly followed by `=` or space"
  | .duplicated offset previous =>
    s!"position {offset}: duplicated attribute, previous declaration at position {previous}"
  | .expectedValue offset => s!"position {offset}: `=` must be followed by an attribute value"
  | .unquoted offset =>
    s!"position {offset}: attribute value must be enclosed in `\"` or `'`"
  | .unclosedQuote offset quote =>
    s!"position {offset}: missing closing quote `{quote}` in attribute value"

/-- An attribute as written: its full key and the text between the quotes. -/
structure RawAttribute where
  key : List Char
  value : List Char
deriving DecidableEq, Repr

/-- The attributes read up to a fault, or up to the end. -/
structure RawAttributes where
  read : List RawAttribute
  fault : Option AttributeFault
deriving DecidableEq, Repr

/-- What follows a key: the text after its `=`, or the fault of its absence. `total` is the
    length of the body in bytes. -/
def afterEquals (total : Nat) (cs : List Char) : Except AttributeFault (List Char) :=
  match cs.dropWhile isSpace with
  | '=' :: later => .ok later
  | later => .error (.expectedEquals (total - byteLength later))

/-- A quoted value at the front of `cs`, and what follows its closing quote. -/
def quotedValue (total : Nat) (cs : List Char) :
    Except AttributeFault (List Char × List Char) :=
  match cs.dropWhile isSpace with
  | [] => .error (.expectedValue total)
  | quote :: inner =>
    if quote = '"' ∨ quote = '\'' then
      match inner.dropWhile (· != quote) with
      | [] => .error (.unclosedQuote total quote)
      | _ :: later => .ok (inner.takeWhile (· != quote), later)
    else .error (.unquoted (total - byteLength (quote :: inner)))

theorem quotedValue_length {total : Nat} {cs value later : List Char}
    (h : quotedValue total cs = .ok (value, later)) : later.length < cs.length := by
  have h₁ := (List.dropWhile_sublist (p := isSpace) (l := cs)).length_le
  unfold quotedValue at h
  split at h
  · cases h
  · next quote inner he =>
    rw [he, List.length_cons] at h₁
    split at h
    · have h₂ := (List.dropWhile_sublist (p := (· != quote)) (l := inner)).length_le
      split at h
      · cases h
      · next he' =>
        rw [he', List.length_cons] at h₂
        cases h
        omega
    · cases h

theorem afterEquals_length {total : Nat} {cs later : List Char}
    (h : afterEquals total cs = .ok later) : later.length < cs.length := by
  have h₁ := (List.dropWhile_sublist (p := isSpace) (l := cs)).length_le
  unfold afterEquals at h
  split at h
  · next he =>
    rw [he, List.length_cons] at h₁
    cases h
    omega
  · cases h

/-- The attributes in the rest `cs` of a body of `total` bytes; `earlier` are the keys before it,
    with the offsets at which they start. -/
def attributesFrom (total : Nat) (earlier : List (List Char × Nat)) (cs : List Char) :
    RawAttributes :=
  match _hs : cs.dropWhile isSpace with
  | [] => ⟨[], none⟩
  | first :: keyed =>
    let start := total - byteLength (first :: keyed)
    let isKey := fun c => c != '=' && !isSpace c
    let key := first :: keyed.takeWhile isKey
    match _he : afterEquals total (keyed.dropWhile isKey) with
    | .error fault => ⟨[], some fault⟩
    | .ok valued =>
      match earlier.lookup key with
      | some previous => ⟨[], some (.duplicated start previous)⟩
      | none =>
        match _hv : quotedValue total valued with
        | .error fault => ⟨[], some fault⟩
        | .ok (value, later) =>
          let more := attributesFrom total ((key, start) :: earlier) later
          ⟨⟨key, value⟩ :: more.read, more.fault⟩
termination_by cs.length
decreasing_by
  have h₁ := (List.dropWhile_sublist (p := isSpace) (l := cs)).length_le
  have h₂ := (List.dropWhile_sublist (p := isKey) (l := keyed)).length_le
  have h₃ := afterEquals_length _he
  have h₄ := quotedValue_length _hv
  rw [_hs] at h₁
  simp only [List.length_cons] at h₁
  omega

/-- The name at the front of a tag's body. -/
def nameOf (body : List Char) : List Char := body.takeWhile (!isSpace ·)

/-- The attributes that follow the name in a tag's body. -/
def attributesOf (body : List Char) : RawAttributes :=
  attributesFrom (byteLength body) [] (body.dropWhile (!isSpace ·))

/-- A name without its namespace qualifier: what follows the first colon, or all of it. -/
def localName (name : List Char) : List Char :=
  match name.dropWhile (· != ':') with
  | [] => name
  | _ :: later => later

/-- The key binds a namespace instead of setting an attribute. -/
def bindsNamespace (key : List Char) : Bool :=
  key == "xmlns".toList || "xmlns:".toList.isPrefixOf key

end SchemaFamily.Xml
