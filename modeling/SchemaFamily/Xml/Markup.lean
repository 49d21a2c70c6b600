import SchemaFamily.Xml.Attribute

/-
  Pieces of markup. A text is a sequence of tags, runs of text, character data sections, document
  type declarations, comments and instructions, each told apart by what follows its `<`. `scan`
  cuts a text into such pieces, each with the byte offset of its first byte; nothing is lost
  between neighbours, and the scan ends at the first piece that is not closed. What is inside a
  piece is not looked at here.
-/

namespace SchemaFamily.Xml

/-- A piece of markup. -/
inductive Markup where
  /-- Text outside markup, never empty, its references not yet replaced. -/
  | text (raw : List Char)
  /-- A start tag, by its body. -/
  | opening (body : List Char)
  /-- A tag that opens and closes an element, by its body. -/
  | empty (body : List Char)
  /-- An end tag, by the name it closes. -/
  | closing (name : List Char)
  /-- A character data section, by its content. -/
  | verbatim (content : List Char)
  /-- A document type declaration, from the name of the type on. -/
  | doctype (content : List Char)
  | comment
  | instruction
deriving DecidableEq, Repr

/-- Why a piece of markup cannot be read. -/
inductive MarkupFault where
  | tagNotClosed
  | instructionNotClosed
  | unknownMarkup
  | commentNotClosed
  | verbatimNotClosed
  | doctypeNotClosed
  | doctypeUnnamed
deriving DecidableEq, Repr

/-- The wording of a fault. -/
def MarkupFault.message : MarkupFault → String
  | .tagNotClosed => "syntax error: tag not closed: `>` not found before end of input"
  | .instructionNotClosed =>
    "syntax error: processing instruction or xml declaration not closed: " ++
      "`?>` not found before end of input"
  | .unknownMarkup => "syntax error: unknown or missed symbol in markup"
  | .commentNotClosed => "syntax error: comment not closed: `-->` not found before end of input"
  | .verbatimNotClosed => "syntax error: CDATA not closed: `]]>` not found before end of input"
  | .doctypeNotClosed => "syntax error: DOCTYPE not closed: `>` not found before end of input"
  | .doctypeUnnamed =>
    "ill-formed document: `<!DOCTYPE>` declaration does not contain a name of a document type"

/-- A thing found in a text, with the byte offset of its first byte. -/
structure Located (α : Type) where
  offset : Nat
  item : α
deriving DecidableEq, Repr

/-! ## Where a piece ends -/

/-- The number of characters before the one at which `step` first stops, added to `n`. -/
def stopsAt {σ : Type} (step : σ → Char → Option σ) (n : Nat) (s : σ) : List Char → Option Nat
  | [] => none
  | c :: cs =>
    match step s c with
    | none => some n
    | some s => stopsAt step (n + 1) s cs

/-- Cuts `cs` before the character at which `step` first stops, and drops that character. -/
def cutAt {σ : Type} (step : σ → Char → Option σ) (s : σ) (cs : List Char) :
    Option (List Char × List Char) :=
  (stopsAt step 0 s cs).map fun n => (cs.take n, cs.drop (n + 1))

theorem cutAt_length {σ : Type} {step : σ → Char → Option σ} {s : σ} {cs body later : List Char}
    (h : cutAt step s cs = some (body, later)) : later.length ≤ cs.length := by
  simp only [cutAt, Option.map_eq_some_iff, Prod.mk.injEq] at h
  obtain ⟨n, _, _, rfl⟩ := h
  simp only [List.length_drop]
  omega

/-- A tag ends at the first `>` outside quotes; the state is the quote that is open. -/
def tagStep : Option Char → Char → Option (Option Char)
  | none, '>' => none
  | none, '"' => some (some '"')
  | none, '\'' => some (some '\'')
  | none, _ => some none
  | some quote, c => some (if c = quote then none else some quote)

/-- A comment ends at the first `>` after `--`, the first four characters apart; the state counts
    the characters seen and the hyphens just before. -/
def commentStep : Nat × Nat → Char → Option (Nat × Nat)
  | (seen, hyphens), '>' => if 4 ≤ seen ∧ 2 ≤ hyphens then none else some (seen + 1, 0)
  | (seen, hyphens), '-' => some (seen + 1, hyphens + 1)
  | (seen, _), _ => some (seen + 1, 0)

/-- Character data ends at the first `>` after `]]`; the state counts the brackets just before. -/
def verbatimStep : Nat → Char → Option Nat
  | brackets, '>' => if 2 ≤ brackets then none else some 0
  | brackets, ']' => some (brackets + 1)
  | _, _ => some 0

/-- A document type declaration ends at the first `>` that closes no inner `<`; the state counts
    the inner ones that are open. -/
def doctypeStep : Nat → Char → Option Nat
  | 0, '>' => none
  | depth + 1, '>' => some depth
  | depth, '<' => some (depth + 1)
  | depth, _ => some depth

/-- An instruction ends at the first `>` after a `?`; the state tells whether one is just before. -/
def instructionStep : Bool → Char → Option Bool
  | true, '>' => none
  | _, c => some (c == '?')

/-! ## Reading one piece -/

/-- A piece read after a `<`: what it is, the bytes it takes after that `<`, and what follows. -/
structure Piece where
  markup : Markup
  size : Nat
  later : List Char
deriving DecidableEq, Repr

/-- Reads what follows `<!`; `offset` is that of the `<`. -/
def readDeclaration (offset : Nat) (cs : List Char) : Except (Located MarkupFault) Piece :=
  match cs with
  | '-' :: _ =>
    match cutAt commentStep (0, 0) cs with
    | some (body, later) =>
      if "--".toList.isPrefixOf body then .ok ⟨.comment, byteLength body + 2, later⟩
      else .error ⟨offset, .commentNotClosed⟩
    | none => .error ⟨offset, .commentNotClosed⟩
  | '[' :: _ =>
    match cutAt verbatimStep 0 cs with
    | some (body, later) =>
      if "[CDATA[".toList.isPrefixOf body then
        .ok ⟨.verbatim (body.drop 7).dropLast.dropLast, byteLength body + 2, later⟩
      else .error ⟨offset, .verbatimNotClosed⟩
    | none => .error ⟨offset, .verbatimNotClosed⟩
  | 'D' :: _ | 'd' :: _ =>
    match cutAt doctypeStep 0 cs with
    | some (body, later) =>
      if (body.take 7).map Char.toUpper = "DOCTYPE".toList then
        match (body.drop 7).dropWhile isSpace with
        | [] => .error ⟨offset + 2 + byteLength body, .doctypeUnnamed⟩
        | content => .ok ⟨.doctype content, byteLength body + 2, later⟩
      else .error ⟨offset, .doctypeNotClosed⟩
    | none => .error ⟨offset, .doctypeNotClosed⟩
  | _ => .error ⟨offset, .unknownMarkup⟩

/-- The name in an end tag: blanks after it are dropped, and where there are only blanks they are
    the name. -/
def endName (cs : List Char) : List Char :=
  if cs.all isSpace then cs else (cs.reverse.dropWhile isSpace).reverse

/-- The tag of a body: an end tag after `/`, an empty element before a final `/`. -/
def tagOfBody (body : List Char) : Markup :=
  match body with
  | '/' :: name => .closing (endName name)
  | body => if body.getLast? = some '/' then .empty body.dropLast else .opening body

/-- Reads what follows a `<` at `offset`. -/
def readMarkup (offset : Nat) (cs : List Char) : Except (Located MarkupFault) Piece :=
  match cs with
  | '!' :: cs => readDeclaration offset cs
  | '?' :: _ =>
    match cutAt instructionStep false cs with
    | some (body, later) =>
      if body = ['?'] then .error ⟨offset, .instructionNotClosed⟩
      else .ok ⟨.instruction, byteLength body + 1, later⟩
    | none => .error ⟨offset, .instructionNotClosed⟩
  | cs =>
    match cutAt tagStep none cs with
    | some (body, later) => .ok ⟨tagOfBody body, byteLength body + 1, later⟩
    | none => .error ⟨offset, .tagNotClosed⟩

theorem readDeclaration_length {offset : Nat} {cs : List Char} {piece : Piece}
    (h : readDeclaration offset cs = .ok piece) : piece.later.length ≤ cs.length := by
  unfold readDeclaration at h
  split at h
  · split at h
    · next hc => split at h <;> cases h; exact cutAt_length hc
    · cases h
  · split at h
    · next hc => split at h <;> cases h; exact cutAt_length hc
    · cases h
  · split at h
    · next hc =>
      split at h
      · split at h <;> cases h; exact cutAt_length hc
      · cases h
    · cases h
  · split at h
    · next hc =>
      split at h
      · split at h <;> cases h; exact cutAt_length hc
      · cases h
    · cases h
  · cases h

theorem readMarkup_length {offset : Nat} {cs : List Char} {piece : Piece}
    (h : readMarkup offset cs = .ok piece) : piece.later.length ≤ cs.length := by
  unfold readMarkup at h
  split at h
  · exact Nat.le_succ_of_le (readDeclaration_length h)
  · split at h
    · next hc => split at h <;> cases h; exact cutAt_length hc
    · cases h
  · split at h
    · next hc => cases h; exact cutAt_length hc
    · cases h

/-! ## The whole text -/

/-- The pieces of a text up to a fault, or up to the end. -/
structure Scan where
  pieces : List (Located Markup)
  fault : Option (Located MarkupFault)
deriving DecidableEq, Repr

/-- The scan that starts with a piece and goes on as `more`. -/
def Scan.cons (offset : Nat) (markup : Markup) (more : Scan) : Scan :=
  ⟨⟨offset, markup⟩ :: more.pieces, more.fault⟩

/-- The pieces of `cs`, whose first byte is at `offset` of a text. -/
def scanFrom (offset : Nat) (cs : List Char) : Scan :=
  match cs with
  | [] => ⟨[], none⟩
  | '<' :: inner =>
    match _h : readMarkup offset inner with
    | .error fault => ⟨[], some fault⟩
    | .ok piece => .cons offset piece.markup (scanFrom (offset + 1 + piece.size) piece.later)
  | first :: inner =>
    let raw := first :: inner.takeWhile (· != '<')
    .cons offset (.text raw) (scanFrom (offset + byteLength raw) (inner.dropWhile (· != '<')))
termination_by cs.length
decreasing_by
  · have := readMarkup_length _h
    simp only [List.length_cons]
    omega
  · have := (List.dropWhile_sublist (p := (· != '<')) (l := inner)).length_le
    simp only [List.length_cons]
    omega

/-- The pieces of a whole text. -/
def scan (cs : List Char) : Scan := scanFrom 0 cs

end SchemaFamily.Xml
