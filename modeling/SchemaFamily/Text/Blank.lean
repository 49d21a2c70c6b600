/-
  Blanks between words. `isBlank` holds of exactly the characters with the property White_Space;
  `words` cuts a text at them and keeps no empty piece, and `normalizeSpace` puts one space
  between the words. So a normalised text has no blank but single inner spaces.
-/

namespace SchemaFamily

/-- Code points with the property White_Space, as closed ranges in ascending order. -/
def blankRanges : List (Nat × Nat) :=
  [(0x9, 0xD), (0x20, 0x20), (0x85, 0x85), (0xA0, 0xA0), (0x1680, 0x1680), (0x2000, 0x200A),
   (0x2028, 0x2029), (0x202F, 0x202F), (0x205F, 0x205F), (0x3000, 0x3000)]

/-- `c` has the property White_Space. -/
def isBlank (c : Char) : Bool :=
  blankRanges.any fun (low, high) => low ≤ c.toNat && c.toNat ≤ high

example : blankRanges.Pairwise (fun a b => a.2 < b.1) ∧
    (blankRanges.map fun (low, high) => high - low + 1).sum = 25 := by decide

/-! ## Pieces between separators -/

/-- The pieces of `cs` between the characters that satisfy `p`; one more than there are such
    characters, the empty ones included. -/
def pieces (p : Char → Bool) (cs : List Char) : List (List Char) :=
  cs.foldr (fun c later =>
    if p c then [] :: later
    else match later with
      | [] => [[c]]
      | piece :: later => (c :: piece) :: later) [[]]

theorem pieces_nil (p : Char → Bool) : pieces p [] = [[]] := rfl

theorem pieces_cons_sep {p : Char → Bool} {c : Char} (h : p c = true) (cs : List Char) :
    pieces p (c :: cs) = [] :: pieces p cs := by
  simp [pieces, h]

theorem pieces_ne_nil (p : Char → Bool) (cs : List Char) : pieces p cs ≠ [] := by
  cases cs with
  | nil => simp [pieces]
  | cons c cs =>
    simp only [pieces, List.foldr_cons]
    split
    · simp
    · split <;> simp

/-! ## Words -/

/-- The words of `cs`: its pieces between blanks, the empty ones left out. -/
def words (cs : List Char) : List (List Char) :=
  (pieces isBlank cs).filter (!·.isEmpty)

theorem ne_nil_of_mem_words {cs w : List Char} (h : w ∈ words cs) : w ≠ [] := by
  have := (List.mem_filter.1 h).2
  simpa using this

/-- The words of a text with one space between neighbours. -/
def normalizeSpace (s : String) : String :=
  String.intercalate " " ((words s.toList).map String.ofList)

/-- `cs` without the blanks at its two ends. -/
def trimBlanks (cs : List Char) : List Char :=
  ((cs.dropWhile isBlank).reverse.dropWhile isBlank).reverse

/-- Some character of `s` is not blank. -/
def hasInk (s : String) : Bool := s.toList.any (!isBlank ·)

end SchemaFamily
