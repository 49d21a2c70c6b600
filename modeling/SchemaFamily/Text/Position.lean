/-
  Places in a text. A `Position` counts lines and the bytes within a line, both from 1; a
  `LineIndex` takes a byte offset to the position of that byte. The line of an offset is one more
  than the number of line breaks before it, and the column one more than its distance from the
  start of that line.
-/

namespace SchemaFamily

/-- A place in a text, lines and bytes counted from 1; `0:0` stands for a place not known. -/
structure Position where
  line : Nat
  column : Nat
deriving DecidableEq, Repr, Inhabited

/-- The place of what no text shows. -/
def Position.unknown : Position := ⟨0, 0⟩

/-- The line, when the place is known. -/
def Position.line? (p : Position) : Option Nat := if 0 < p.line then some p.line else none

/-- Number of bytes of a text in UTF-8. -/
def byteLength (cs : List Char) : Nat := cs.foldl (fun n c => n + c.utf8Size) 0

theorem foldl_utf8Size (n : Nat) (cs : List Char) :
    cs.foldl (fun n c => n + c.utf8Size) n = n + byteLength cs := by
  induction cs generalizing n with
  | nil => rfl
  | cons c cs ih =>
    simp only [byteLength, List.foldl_cons]
    rw [ih, ih (0 + c.utf8Size)]
    omega

@[simp]
theorem byteLength_nil : byteLength [] = 0 := rfl

@[simp]
theorem byteLength_cons (c : Char) (cs : List Char) :
    byteLength (c :: cs) = c.utf8Size + byteLength cs := by
  rw [byteLength, List.foldl_cons, foldl_utf8Size, Nat.zero_add]

@[simp]
theorem byteLength_append (cs ds : List Char) :
    byteLength (cs ++ ds) = byteLength cs + byteLength ds := by
  rw [byteLength, List.foldl_append, foldl_utf8Size]
  rfl

/-- Byte offsets at which lines start, the first line's apart. -/
structure LineIndex where
  starts : List Nat
deriving DecidableEq, Repr

/-- The offsets just after the line breaks of `cs`, the first byte of `cs` being at `offset`. -/
def lineStarts (offset : Nat) : List Char → List Nat
  | [] => []
  | c :: cs =>
    if c = '\n' then (offset + 1) :: lineStarts (offset + 1) cs
    else lineStarts (offset + c.utf8Size) cs

/-- The line index of a whole text. -/
def LineIndex.of (cs : List Char) : LineIndex := ⟨lineStarts 0 cs⟩

/-- The position of `offset`, when line `line` starts at `start` and the later lines at `starts`. -/
def positionFrom (offset line start : Nat) : List Nat → Position
  | [] => ⟨line, offset - start + 1⟩
  | next :: later =>
    if next ≤ offset then positionFrom offset (line + 1) next later
    else ⟨line, offset - start + 1⟩

/-- The position of the byte at `offset`. -/
def LineIndex.position (index : LineIndex) (offset : Nat) : Position :=
  positionFrom offset 1 0 index.starts

example : (LineIndex.of "a\n\nbc".toList).position 0 = ⟨1, 1⟩ := by decide
example : (LineIndex.of "a\n\nbc".toList).position 2 = ⟨2, 1⟩ := by decide
example : (LineIndex.of "a\n\nbc".toList).position 5 = ⟨3, 3⟩ := by decide

theorem positionFrom_line (offset line start : Nat) (starts : List Nat) :
    line ≤ (positionFrom offset line start starts).line := by
  induction starts generalizing line start with
  | nil => simp [positionFrom]
  | cons next later ih =>
    simp only [positionFrom]
    split
    · exact Nat.le_trans (Nat.le_succ line) (ih (line + 1) next)
    · exact Nat.le_refl line

theorem one_le_position_line (index : LineIndex) (offset : Nat) :
    1 ≤ (index.position offset).line :=
  positionFrom_line offset 1 0 index.starts

end SchemaFamily
