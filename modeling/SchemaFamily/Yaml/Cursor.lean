import SchemaFamily.Text.Position
import SchemaFamily.Yaml.Scalar

/-
  Places in a YAML text. A cursor holds what is left of the text and tells how many bytes were
  read, and the line and the column it has come to, which are counted in characters; all from 0.
  A gap is what stands between two words: blanks, or line breaks with blanks around them, which
  fold to one space when there is only one break.
-/

namespace SchemaFamily.Yaml

/-- A space or a tabulator. -/
def isBlank (c : Char) : Bool := c == ' ' || c == '\t'

/-- A place in a text. -/
structure Cursor where
  rest : List Char
  offset : Nat := 0
  line : Nat := 0
  column : Nat := 0
deriving DecidableEq, Repr

namespace Cursor

/-- The place `n` characters on, in the same line. -/
def move (c : Cursor) (n : Nat) : Cursor :=
  { c with
    rest := c.rest.drop n
    offset := c.offset + byteLength (c.rest.take n)
    column := c.column + n }

/-- The start of the next line, from the break that ends this one. -/
def breakLine (c : Cursor) : Cursor :=
  match c.rest with
  | [] => c
  | '\r' :: '\n' :: later => ⟨later, c.offset + 2, c.line + 1, 0⟩
  | x :: later => ⟨later, c.offset + x.utf8Size, c.line + 1, 0⟩

/-- A line break is next. -/
def atBreak (c : Cursor) : Bool := c.rest.head?.any isBreak

/-- Blanks, a break or the end of the text come after `n` characters. -/
def separatedAfter (c : Cursor) (n : Nat) : Bool := atSeparator (c.rest.drop n)

/-- A line that begins or ends a document is next. -/
def atMarker (c : Cursor) : Bool :=
  c.column == 0 && c.separatedAfter 3 &&
    ("---".toList.isPrefixOf c.rest || "...".toList.isPrefixOf c.rest)

/-- The characters that satisfy `p`, and the place after them. -/
def span (c : Cursor) (p : Char → Bool) : List Char × Cursor :=
  let taken := c.rest.takeWhile p
  (taken, c.move taken.length)

end Cursor

/-- A break as it is kept: line and paragraph separators as they are, all others as one sign. -/
def keptBreak (c : Char) : Char := if c = '\u2028' ∨ c = '\u2029' then c else '\n'

/-! ## Gaps -/

/-- What stands between two words: blanks, or breaks. -/
structure Gap where
  blanks : List Char := []
  breaks : List Char := []
deriving Repr

/-- What a gap is read as: its blanks, a space for a single break, or the breaks after the
    first. -/
def Gap.folded (g : Gap) : List Char :=
  match g.breaks with
  | [] => g.blanks
  | ['\n'] => [' ']
  | '\n' :: more => more
  | breaks => breaks

/-- The breaks from a place on and the place after them and all blanks, in at most `steps` steps;
    no tabulator may stand before column `indent`. -/
def breaksFrom (indent : Nat) : (steps : Nat) → Cursor → Option (List Char × Cursor)
  | 0, c => some ([], c)
  | steps + 1, c =>
    match c.rest with
    | [] => some ([], c)
    | x :: _ =>
      if x == '\t' && c.column < indent then none
      else if isBlank x then breaksFrom indent steps (c.move 1)
      else if isBreak x then
        (breaksFrom indent steps c.breakLine).map fun (breaks, c) => (keptBreak x :: breaks, c)
      else some ([], c)

/-- The gap at a place and the place after it; in later lines no tabulator may stand before column
    `indent`. -/
def Cursor.gap? (c : Cursor) (indent : Nat) : Option (Gap × Cursor) :=
  let (blanks, after) := c.span isBlank
  if after.atBreak then
    (breaksFrom indent after.rest.length after).map fun (breaks, c) => (⟨[], breaks⟩, c)
  else some (⟨blanks, []⟩, after)

end SchemaFamily.Yaml
