import Mathlib.Data.List.TakeWhile

/-
  Runs of characters. A run of characters that satisfy `p` ends before the first that does not
  (`span_append`). `Blanks` is such a run between words, `Gap` one that is not empty, and `Literal`
  a text in quotes, which ends with the second of them.
-/

namespace SchemaFamily.Xml

/-! ## Where runs end -/

section

variable {p : Char → Bool} {run later : List Char}

/-- A run ends before the first character that is not of it. -/
theorem span_append (hrun : ∀ c ∈ run, p c = true)
    (hlater : ∀ c, later.head? = some c → p c = false) :
    (run ++ later).takeWhile p = run ∧ (run ++ later).dropWhile p = later := by
  rw [List.takeWhile_append_of_pos hrun, List.dropWhile_append_of_pos hrun]
  cases later with
  | nil => exact ⟨List.append_nil run, rfl⟩
  | cons c cs =>
    have hc : ¬ p c = true := by
      rw [hlater c rfl]
      decide
    rw [List.takeWhile_cons_of_neg hc, List.dropWhile_cons_of_neg hc, List.append_nil]
    exact ⟨rfl, rfl⟩

/-- A run ends before a character that is not of it. -/
theorem span_cons {c : Char} (hrun : ∀ c ∈ run, p c = true) (hc : p c = false) :
    (run ++ c :: later).takeWhile p = run ∧ (run ++ c :: later).dropWhile p = c :: later :=
  span_append hrun fun _ h => by
    cases h
    exact hc

end

/-! ## Blanks -/

/-- A run of characters that count as blank, maybe empty. -/
structure Blanks (blank : Char → Bool) where
  chars : List Char
  all_blank : chars.all blank = true := by decide

/-- Blanks between two words. -/
structure Gap (blank : Char → Bool) extends Blanks blank where
  ne_nil : chars ≠ [] := by decide

variable {blank : Char → Bool}

/-- No blanks. -/
def Blanks.empty : Blanks blank := ⟨[], rfl⟩

/-- One space. -/
def Gap.space (h : blank ' ' = true) : Gap blank where
  chars := [' ']
  all_blank := List.all_eq_true.2 fun _ hc => List.mem_singleton.1 hc ▸ h
  ne_nil := List.cons_ne_nil ' ' []

theorem Blanks.blank_of_mem (b : Blanks blank) : ∀ c ∈ b.chars, blank c = true :=
  List.all_eq_true.1 b.all_blank

/-- The blanks in front of a word are cut off. -/
theorem Blanks.dropWhile (b : Blanks blank) {later : List Char}
    (h : ∀ c, later.head? = some c → blank c = false) :
    (b.chars ++ later).dropWhile blank = later :=
  (span_append b.blank_of_mem h).2

/-- A gap starts with a blank. -/
theorem Gap.blank_of_head (gap : Gap blank) {c : Char} {cs : List Char}
    (h : (gap.chars ++ cs).head? = some c) : blank c = true := by
  obtain ⟨first, more, hgap⟩ := List.exists_cons_of_ne_nil gap.ne_nil
  rw [hgap] at h
  cases h
  exact gap.blank_of_mem c (hgap ▸ List.mem_cons_self)

/-- A word ends with the gap behind it. -/
theorem Gap.span (gap : Gap blank) {word : List Char} (hword : ∀ c ∈ word, blank c = false)
    (cs : List Char) :
    (word ++ (gap.chars ++ cs)).takeWhile (!blank ·) = word ∧
      (word ++ (gap.chars ++ cs)).dropWhile (!blank ·) = gap.chars ++ cs :=
  span_append (fun c hc => by rw [hword c hc]; rfl)
    fun c hc => by rw [gap.blank_of_head hc]; rfl

/-! ## Texts in quotes -/

/-- The quotes that a text may stand in. -/
inductive Quote where
  | double
  | single

/-- The character that opens and closes the text. -/
def Quote.char : Quote → Char
  | .double => '"'
  | .single => '\''

theorem Quote.char_eq : ∀ quote : Quote, quote.char = '"' ∨ quote.char = '\''
  | .double => .inl rfl
  | .single => .inr rfl

/-- A text in quotes, which it does not hold itself. -/
structure Literal where
  quote : Quote := .double
  value : List Char
  closed : quote.char ∉ value := by decide

/-- A literal as it is written. -/
def Literal.write (l : Literal) : List Char := l.quote.char :: l.value ++ [l.quote.char]

theorem Literal.write_append (l : Literal) (cs : List Char) :
    l.write ++ cs = l.quote.char :: (l.value ++ l.quote.char :: cs) := by
  rw [Literal.write, List.cons_append, List.cons_append, List.append_assoc, List.singleton_append]

/-- A literal ends with its second quote. -/
theorem Literal.span (l : Literal) (cs : List Char) :
    (l.value ++ l.quote.char :: cs).takeWhile (· != l.quote.char) = l.value ∧
      (l.value ++ l.quote.char :: cs).dropWhile (· != l.quote.char) = l.quote.char :: cs :=
  span_cons (fun _ hc => bne_iff_ne.2 fun heq => l.closed (heq ▸ hc))
    (bne_self_eq_false l.quote.char)

end SchemaFamily.Xml
