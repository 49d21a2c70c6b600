import SchemaFamily.Proofs.Text.Bytes
import SchemaFamily.Proofs.Xml.Positions

/-
  Lines of a text in its bytes. A line break is one byte and in no other character, so lines can be
  counted byte by byte, also up to an offset within a character (`count_take_lineBreak`), and the
  bytes tell where a line starts (`Position.Marks.startsLineOf`). The line of an offset can be
  looked up by halving the starts of lines, which stand in ascending order, instead of walking over
  them (`search_eq_position`). So a position counts the lines in front of its offset and the bytes
  of its line up to it, and the offset is found again from it (`position_exact`).
-/

namespace SchemaFamily

open String

/-! ## Line breaks as bytes -/

/-- The byte of a line break. -/
def lineBreak : UInt8 := 10

theorem lineBreak_eq_ofNat {n : Nat} (h : n < 256) : lineBreak = UInt8.ofNat n ↔ n = 10 := by
  rw [← UInt8.toNat_inj, UInt8.toNat_ofNat', Nat.mod_eq_of_lt h]
  exact Eq.comm

/-- No other character has the byte of a line break in it. -/
theorem lineBreak_notMem_encoded {c : Char} (h : c ≠ '\n') : lineBreak ∉ utf8EncodeChar c := by
  have hval : c.val.toNat ≠ 10 := fun hval => h (Char.ext (UInt32.toNat_inj.1 hval))
  simp only [utf8EncodeChar]
  generalize c.val.toNat = n at hval ⊢
  -- one case for each length: the bytes of a longer form are all from 128 on
  split_ifs <;>
    simp (disch := omega) only [List.mem_cons, List.not_mem_nil, or_false, lineBreak_eq_ofNat] <;>
    omega

/-- Lines are separated by the bytes of line breaks. -/
theorem lineCount_eq_count (cs : List Char) :
    lineCount cs = 1 + (cs.flatMap utf8EncodeChar).count lineBreak := by
  induction cs with
  | nil => rfl
  | cons c cs ih =>
    rw [List.flatMap_cons, List.count_append]
    by_cases hbreak : c = '\n'
    · subst hbreak
      rw [lineCount_break, ih]
      show _ = 1 + (1 + _)
      omega
    · rw [lineCount_cons hbreak, ih, List.count_eq_zero.2 (lineBreak_notMem_encoded hbreak),
        Nat.zero_add]

theorem count_take_break (cs : List Char) (offset : Nat) :
    ((('\n' :: cs).flatMap utf8EncodeChar).take (offset + 1)).count lineBreak =
      ((cs.flatMap utf8EncodeChar).take offset).count lineBreak + 1 := by
  show (List.take (offset + 1) (lineBreak :: cs.flatMap utf8EncodeChar)).count lineBreak = _
  rw [List.take_succ_cons, List.count_cons_self]

theorem count_take_cons {c : Char} (h : c ≠ '\n') (cs : List Char) (offset : Nat) :
    (((c :: cs).flatMap utf8EncodeChar).take offset).count lineBreak =
      ((cs.flatMap utf8EncodeChar).take (offset - c.utf8Size)).count lineBreak := by
  have hnone : ((utf8EncodeChar c).take offset).count lineBreak = 0 :=
    List.count_eq_zero.2 fun hmem => lineBreak_notMem_encoded h (List.mem_of_mem_take hmem)
  rw [List.flatMap_cons, List.take_append, List.count_append, hnone, Nat.zero_add,
    length_utf8EncodeChar]

/-! ## Starts of lines in bytes -/

/-- Each line starts behind the start of the line before it. -/
theorem lineStart_lt_succ {cs : List Char} {n : Nat} (h : n + 1 < lineCount cs) :
    lineStart cs (n + 1) < lineStart cs (n + 2) := by
  induction cs generalizing n with
  | nil => exact absurd h (Nat.not_lt.2 (Nat.succ_le_succ (Nat.zero_le n)))
  | cons c cs ih =>
    by_cases hbreak : c = '\n'
    · subst hbreak
      rw [lineCount_break] at h
      cases n with
      | zero =>
        rw [lineStart_break]
        exact Nat.succ_pos _
      | succ n =>
        rw [lineStart_break, lineStart_break]
        exact Nat.succ_lt_succ (ih (Nat.lt_of_succ_lt_succ h))
    · rw [lineCount_cons hbreak] at h
      have hlt := ih h
      cases n with
      | zero =>
        rw [lineStart_cons hbreak]
        exact Nat.add_pos_right _ c.utf8Size_pos
      | succ n =>
        rw [lineStart_cons hbreak, lineStart_cons hbreak]
        exact Nat.add_lt_add_right hlt _

/-- In front of an offset there are as many line breaks as lines before the one that it is on. -/
theorem count_take_lineBreak {cs : List Char} {offset n : Nat} (hcount : n < lineCount cs)
    (hle : lineStart cs (n + 1) ≤ offset)
    (hlast : n + 1 < lineCount cs → offset < lineStart cs (n + 2)) :
    ((cs.flatMap utf8EncodeChar).take offset).count lineBreak = n := by
  induction cs generalizing offset n with
  | nil =>
    rw [List.flatMap_nil, List.take_nil, List.count_nil]
    exact (Nat.lt_one_iff.1 hcount).symm
  | cons c cs ih =>
    by_cases hbreak : c = '\n'
    · subst hbreak
      rw [lineCount_break] at hcount hlast
      rw [lineStart_break] at hlast
      cases n with
      | zero =>
        -- the second line starts behind this line break, so the offset is in front of it
        have hzero : offset < 1 := hlast (Nat.succ_lt_succ (lineCount_pos cs))
        rw [Nat.lt_one_iff.1 hzero]
        rfl
      | succ n =>
        rw [lineStart_break] at hle
        obtain ⟨more, rfl⟩ := Nat.exists_eq_add_of_le' (Nat.le_of_add_left_le hle)
        rw [count_take_break, ih (Nat.lt_of_succ_lt_succ hcount) (Nat.le_of_succ_le_succ hle)
          fun h => Nat.lt_of_succ_lt_succ (hlast (Nat.succ_lt_succ h))]
    · rw [lineCount_cons hbreak] at hcount hlast
      rw [lineStart_cons hbreak] at hlast
      rw [count_take_cons hbreak]
      refine ih hcount ?_ fun h => ?_
      · cases n with
        | zero => exact Nat.zero_le _
        | succ n =>
          rw [lineStart_cons hbreak] at hle
          exact Nat.le_sub_of_add_le hle
      · have hlt := hlast h
        have hpos : 0 < lineStart cs (n + 2) := Nat.zero_lt_of_lt (lineStart_lt_succ h)
        omega

/-- The line that the byte at `offset` is on starts at `start`: at the beginning, or behind a line
    break, with no other up to the offset. -/
structure StartsLineOf (bs : List UInt8) (offset start : Nat) : Prop where
  le : start ≤ offset
  behind : 0 < start → bs[start - 1]? = some lineBreak
  unbroken : lineBreak ∉ (bs.take offset).drop start

/-- A byte with which the number of line breaks goes up is one. -/
theorem getElem?_of_count_take {bs : List UInt8} {offset : Nat}
    (h : (bs.take (offset + 1)).count lineBreak = (bs.take offset).count lineBreak + 1) :
    bs[offset]? = some lineBreak := by
  rw [List.take_add_one, List.count_append] at h
  have hmem : lineBreak ∈ bs[offset]?.toList := List.count_pos_iff.1 (by omega)
  exact Option.mem_toList.1 hmem

/-- Between two offsets with equally many line breaks in front there is none. -/
theorem lineBreak_notMem_drop_take {bs : List UInt8} {start offset : Nat} (hle : start ≤ offset)
    (h : (bs.take start).count lineBreak = (bs.take offset).count lineBreak) :
    lineBreak ∉ (bs.take offset).drop start := by
  have hsplit := congrArg (List.count lineBreak) (List.take_append_drop start (bs.take offset))
  rw [List.count_append, List.take_take, Nat.min_eq_left hle, h] at hsplit
  exact List.count_eq_zero.1 (by omega)

theorem count_take_lineStart {cs : List Char} {n : Nat} (h : n < lineCount cs) :
    ((cs.flatMap utf8EncodeChar).take (lineStart cs (n + 1))).count lineBreak = n :=
  count_take_lineBreak h (Nat.le_refl _) lineStart_lt_succ

/-- Right in front of a line that is not the first stands a line break. -/
theorem getElem?_lineStart {cs : List Char} {n : Nat} (h : n + 1 < lineCount cs) :
    (cs.flatMap utf8EncodeChar)[lineStart cs (n + 2) - 1]? = some lineBreak := by
  have hlt := lineStart_lt_succ h
  have hfront : ((cs.flatMap utf8EncodeChar).take (lineStart cs (n + 2) - 1)).count lineBreak = n :=
    count_take_lineBreak (Nat.lt_of_succ_lt h) (Nat.le_sub_one_of_lt hlt) fun _ => by omega
  refine getElem?_of_count_take ?_
  rw [hfront, Nat.sub_add_cancel (Nat.one_le_of_lt hlt)]
  exact count_take_lineStart h

section Marks

variable {cs : List Char} {p : Position} {offset : Nat}

theorem Position.Marks.lineStart_le (h : p.Marks cs offset) : lineStart cs p.line ≤ offset := by
  have := h.exact
  have := h.column_pos
  omega

/-- The line is one more than the line breaks in front of the offset. -/
theorem Position.Marks.line_eq (h : p.Marks cs offset) :
    p.line = 1 + ((cs.flatMap utf8EncodeChar).take offset).count lineBreak := by
  have hle := h.lineStart_le
  obtain ⟨line, column⟩ := p
  obtain ⟨n, rfl⟩ := Nat.exists_eq_add_of_le' h.line_pos
  rw [count_take_lineBreak h.line_le hle h.last, Nat.add_comm]

/-- The line is the one whose start the bytes tell. -/
theorem Position.Marks.startsLineOf (h : p.Marks cs offset) :
    StartsLineOf (cs.flatMap utf8EncodeChar) offset (lineStart cs p.line) := by
  have hle := h.lineStart_le
  obtain ⟨line, column⟩ := p
  obtain ⟨n, rfl⟩ := Nat.exists_eq_add_of_le' h.line_pos
  refine ⟨hle, fun hpos => ?_, lineBreak_notMem_drop_take hle ?_⟩
  · cases n with
    | zero => exact absurd hpos (Nat.lt_irrefl 0)
    | succ n => exact getElem?_lineStart h.line_le
  · rw [count_take_lineBreak h.line_le hle h.last]
    exact count_take_lineStart h.line_le

end Marks

/-! ## Looking up by halving -/

/-- The number of entries at the beginning of `xs` for which `p` holds, when it holds before `low`
    and not from `high` on; the entries between are halved. -/
def boundary (p : Nat → Bool) (xs : List Nat) (low high : Nat) : Nat :=
  if low < high then
    let middle := (low + high) / 2
    if xs[middle]?.any p then boundary p xs (middle + 1) high else boundary p xs low middle
  else low
termination_by high - low

/-- The position of `offset`, the line looked up by halving the starts of all lines. -/
def LineIndex.search (index : LineIndex) (offset : Nat) : Position :=
  let starts := 0 :: index.starts
  let line := boundary (· ≤ offset) starts 0 starts.length
  ⟨line, offset - starts[line - 1]?.getD 0 + 1⟩

/-- `p` holds of the entries before `low` and of none from `high` on. -/
structure Between (p : Nat → Bool) (xs : List Nat) (low high : Nat) : Prop where
  low_le : low ≤ high
  high_le : high ≤ xs.length
  before : ∀ x ∈ xs.take low, p x
  after : ∀ x ∈ xs.drop high, ¬ p x

variable {p : Nat → Bool} {xs : List Nat} {low high : Nat}

/-- When an entry passes, so does what is before it; when it does not, nothing behind it does. -/
theorem pairwise_middle (hp : xs.Pairwise fun x y => p y → p x) {middle : Nat}
    (hlt : middle < xs.length) :
    (p xs[middle] → ∀ x ∈ xs.take (middle + 1), p x) ∧
      (¬ p xs[middle] → ∀ x ∈ xs.drop middle, ¬ p x) := by
  have hdrop := List.drop_eq_getElem_cons hlt
  rw [← List.take_append_drop middle xs, hdrop, List.pairwise_append, List.pairwise_cons] at hp
  obtain ⟨_, ⟨hbehind, _⟩, hbefore⟩ := hp
  refine ⟨fun hmiddle x hx => ?_, fun hmiddle x hx => ?_⟩
  · rw [← List.take_append_getElem hlt, List.mem_append, List.mem_singleton] at hx
    rcases hx with hx | rfl
    · exact hbefore x hx _ List.mem_cons_self hmiddle
    · exact hmiddle
  · rw [hdrop] at hx
    rcases List.mem_cons.1 hx with rfl | hx
    · exact hmiddle
    · exact fun hpx => hmiddle (hbehind x hx hpx)

/-- Halving finds the place where `p` ceases to hold. -/
theorem between_boundary (hp : xs.Pairwise fun x y => p y → p x) (h : Between p xs low high) :
    Between p xs (boundary p xs low high) (boundary p xs low high) := by
  fun_induction boundary p xs low high with
  | case1 low high hlt middle hmiddle ih =>
    have hin : middle < xs.length := Nat.lt_of_lt_of_le (by omega) h.high_le
    rw [List.getElem?_eq_getElem hin, Option.any_some] at hmiddle
    exact ih ⟨by omega, h.high_le, (pairwise_middle hp hin).1 hmiddle, h.after⟩
  | case2 low high hlt middle hmiddle ih =>
    have hin : middle < xs.length := Nat.lt_of_lt_of_le (by omega) h.high_le
    rw [List.getElem?_eq_getElem hin, Option.any_some] at hmiddle
    exact ih ⟨by omega, Nat.le_of_lt hin, h.before, (pairwise_middle hp hin).2 hmiddle⟩
  | case3 low high hlt =>
    have := h.low_le
    obtain rfl : low = high := by omega
    exact h

/-- The place is behind the first entries for which `p` holds. -/
theorem Between.eq_length_takeWhile {n : Nat} (h : Between p xs n n) :
    n = (xs.takeWhile p).length := by
  have hnil : (xs.drop n).takeWhile p = [] := by
    cases hdrop : xs.drop n with
    | nil => rfl
    | cons x later => exact List.takeWhile_cons_of_neg (h.after x (hdrop ▸ List.mem_cons_self))
  conv_rhs => rw [← List.take_append_drop n xs]
  rw [List.takeWhile_append_of_pos h.before, hnil, List.append_nil,
    List.length_take_of_le h.high_le]

theorem boundary_eq_length_takeWhile (hp : xs.Pairwise fun x y => p y → p x) :
    boundary p xs 0 xs.length = (xs.takeWhile p).length := by
  have hall : Between p xs 0 xs.length :=
    ⟨Nat.zero_le _, Nat.le_refl _, by simp, by simp⟩
  exact (between_boundary hp hall).eq_length_takeWhile

/-- Starts of lines stand in ascending order. -/
theorem pairwise_lineStarts (offset : Nat) (cs : List Char) :
    (lineStarts offset cs).Pairwise (· < ·) := by
  induction cs generalizing offset with
  | nil => exact List.Pairwise.nil
  | cons c cs ih =>
    rw [lineStarts]
    split
    · exact List.pairwise_cons.2 ⟨fun start h => Xml.le_of_mem_lineStarts h, ih (offset + 1)⟩
    · exact ih _

theorem getElem?_lineStarts (offset : Nat) {cs : List Char} {n : Nat} (h : n + 1 < lineCount cs) :
    (lineStarts offset cs)[n]? = some (offset + lineStart cs (n + 2)) := by
  induction cs generalizing offset n with
  | nil => exact absurd h (Nat.not_lt.2 (Nat.succ_le_succ (Nat.zero_le n)))
  | cons c cs ih =>
    rw [lineStarts]
    split
    · next hbreak =>
      subst hbreak
      rw [lineCount_break] at h
      rw [lineStart_break]
      cases n with
      | zero => rfl
      | succ n =>
        rw [List.getElem?_cons_succ, ih (offset + 1) (Nat.lt_of_succ_lt_succ h), Nat.add_assoc,
          Nat.add_comm 1]
    · next hother =>
      rw [lineCount_cons hother] at h
      rw [ih _ h, lineStart_cons hother, Nat.add_assoc, Nat.add_comm c.utf8Size]

/-- A line index lists the starts of the lines, the first one's apart. -/
theorem getElem?_starts {cs : List Char} {n : Nat} (h : n < lineCount cs) :
    (0 :: (LineIndex.of cs).starts)[n]? = some (lineStart cs (n + 1)) := by
  cases n with
  | zero => rfl
  | succ n =>
    rw [List.getElem?_cons_succ, LineIndex.of, getElem?_lineStarts 0 h, Nat.zero_add]

/-- Walking over the starts of lines goes as far as they are not behind the offset. -/
theorem positionFrom_eq (offset line start : Nat) (starts : List Nat) :
    positionFrom offset line start starts =
      ⟨line + (starts.takeWhile (· ≤ offset)).length,
        offset - (start :: starts)[(starts.takeWhile (· ≤ offset)).length]?.getD 0 + 1⟩ := by
  induction starts generalizing line start with
  | nil => rfl
  | cons next later ih =>
    rw [positionFrom]
    split
    · next hle =>
      rw [ih, List.takeWhile_cons_of_pos (by simpa using hle), List.length_cons,
        List.getElem?_cons_succ]
      congr 1
      omega
    · next hlt =>
      rw [List.takeWhile_cons_of_neg (by simpa using hlt)]
      rfl

/-- Halving finds the position that the walk finds. -/
theorem search_eq_position (cs : List Char) (offset : Nat) :
    (LineIndex.of cs).search offset = (LineIndex.of cs).position offset := by
  have hsorted : (0 :: lineStarts 0 cs).Pairwise fun x y =>
      decide (y ≤ offset) = true → decide (x ≤ offset) = true := by
    have hlt : (0 :: lineStarts 0 cs).Pairwise (· < ·) :=
      List.pairwise_cons.2 ⟨fun start h => Xml.le_of_mem_lineStarts h, pairwise_lineStarts 0 cs⟩
    refine hlt.imp fun hlt hle => ?_
    rw [decide_eq_true_iff] at hle ⊢
    exact (Nat.le_of_lt hlt).trans hle
  rw [LineIndex.position, positionFrom_eq, LineIndex.search]
  simp only [LineIndex.of]
  rw [boundary_eq_length_takeWhile hsorted, List.takeWhile_cons_of_pos (by simp), List.length_cons,
    Nat.add_sub_cancel, Nat.add_comm 1]

/-! ## Positions and offsets -/

/-- The position of an offset counts from 1 the lines, which line breaks separate, and the bytes
    from the start of the last one, which the index lists; a later offset has a later position, and
    the start and the column lead back to the offset. Halving finds the same position. This holds in
    every text of every offset, also of one within a character or at the end. -/
theorem position_exact (text : String) (offset : Nat) :
    let index := LineIndex.of text.toList
    let p := index.position offset
    let start := lineStart text.toList p.line
    p.line = 1 + ((bytes text).take offset).count lineBreak ∧
      StartsLineOf (bytes text) offset start ∧ (0 :: index.starts)[p.line - 1]? = some start ∧
      p.column = 1 + (offset - start) ∧ 1 ≤ p.line ∧ p.line ≤ lineCount text.toList ∧
      lineCount text.toList = 1 + (bytes text).count lineBreak ∧
      (∀ later, offset < later → p.Before (index.position later)) ∧
      offset = start + p.column - 1 ∧
      index.search offset = p := by
  intro index p start
  have hmarks : p.Marks text.toList offset := marks_position text.toList offset
  have hle : start ≤ offset := hmarks.lineStart_le
  have hexact : start + p.column = offset + 1 := hmarks.exact
  rw [bytes_eq]
  refine ⟨hmarks.line_eq, hmarks.startsLineOf, ?_, by omega, hmarks.line_pos, hmarks.line_le,
    lineCount_eq_count text.toList, fun later hlater => ?_, by omega,
    search_eq_position text.toList offset⟩
  · have hlisted := getElem?_starts (Nat.sub_one_lt_of_le hmarks.line_pos hmarks.line_le)
    rwa [Nat.sub_add_cancel hmarks.line_pos] at hlisted
  · exact hmarks.before (marks_position text.toList later) hlater

/-- An empty line: the offset of its line break is behind the line break before it. -/
theorem position_emptyLine :
    3 < 4 ∧ (LineIndex.of "é\n\nb".toList).position 3 = ⟨2, 1⟩ ∧
      ((LineIndex.of "é\n\nb".toList).position 3).Before
        ((LineIndex.of "é\n\nb".toList).position 4) := by
  obtain ⟨_, _, _, _, _, _, _, hbefore, _, _⟩ := position_exact "é\n\nb" 3
  exact ⟨by decide, by decide, hbefore 4 (by decide)⟩

example : (LineIndex.of "é\n".toList).position 1 = ⟨1, 2⟩ := by decide
example : (LineIndex.of "é\n".toList).position 3 = ⟨2, 1⟩ := by decide

end SchemaFamily
