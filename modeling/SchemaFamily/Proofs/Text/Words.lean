import SchemaFamily.Text.Blank

/-
  Words and the blanks between them. `pieces` cuts as the library's `splitOnP` does, so two texts
  with blanks between them have the words of the first and then those of the second
  (`words_append_blanks`), and so have any number of texts (`words_intercalate`). A word has no
  blank and is its own only word; hence normalising keeps the words (`words_normalizeSpace`), and
  what it leaves is empty when there is nothing but blanks (`normalizeSpace_eq_empty_iff`).
-/

namespace SchemaFamily

/-! ## Pieces between separators -/

theorem pieces_cons_of_not {p : Char → Bool} {c : Char} (h : p c = false) (cs : List Char) :
    pieces p (c :: cs) = (pieces p cs).modifyHead (c :: ·) := by
  cases hp : pieces p cs with
  | nil => exact absurd hp (pieces_ne_nil p cs)
  | cons piece later =>
    rw [pieces] at hp ⊢
    rw [List.foldr_cons, hp, if_neg (by simp [h])]
    rfl

theorem pieces_eq_splitOnP (p : Char → Bool) (cs : List Char) : pieces p cs = cs.splitOnP p := by
  induction cs with
  | nil => rfl
  | cons c cs ih =>
    rw [List.splitOnP_cons_eq_if_modifyHead, ← ih]
    cases hc : p c with
    | true => rw [if_pos rfl, pieces_cons_sep hc]
    | false => rw [if_neg Bool.false_ne_true, pieces_cons_of_not hc]

/-- No piece holds a separator. -/
theorem eq_false_of_mem_pieces {p : Char → Bool} {cs piece : List Char} (h : piece ∈ pieces p cs) :
    ∀ c ∈ piece, p c = false := by
  induction cs generalizing piece with
  | nil =>
    rw [pieces_nil, List.mem_singleton] at h
    subst h
    simp
  | cons c cs ih =>
    cases hc : p c with
    | true =>
      rw [pieces_cons_sep hc] at h
      rcases List.mem_cons.1 h with rfl | h
      · simp
      · exact ih h
    | false =>
      rw [pieces_cons_of_not hc] at h
      cases hp : pieces p cs with
      | nil => exact absurd hp (pieces_ne_nil p cs)
      | cons head later =>
        rw [hp] at h ih
        rcases List.mem_cons.1 h with rfl | h
        · intro x hx
          rcases List.mem_cons.1 hx with rfl | hx
          · exact hc
          · exact ih List.mem_cons_self x hx
        · exact ih (List.mem_cons_of_mem head h)

/-! ## Words side by side -/

theorem words_eq (cs : List Char) : words cs = (cs.splitOnP isBlank).filter (!·.isEmpty) := by
  rw [words, pieces_eq_splitOnP]

section

variable {c : Char} {cs ds w sep : List Char}

/-- A blank ends a word. -/
theorem words_append_blank (h : isBlank c = true) (cs ds : List Char) :
    words (cs ++ c :: ds) = words cs ++ words ds := by
  rw [words_eq, words_eq, words_eq, List.splitOnP_append_cons cs ds h, List.filter_append]

theorem words_cons_blank (h : isBlank c = true) (cs : List Char) : words (c :: cs) = words cs :=
  words_append_blank h [] cs

/-- Blanks between two texts keep their words apart. -/
theorem words_append_blanks (hne : sep ≠ []) (h : ∀ c ∈ sep, isBlank c = true)
    (cs ds : List Char) : words (cs ++ sep ++ ds) = words cs ++ words ds := by
  obtain ⟨c, sep, rfl⟩ := List.exists_cons_of_ne_nil hne
  obtain ⟨hc, hsep⟩ := List.forall_mem_cons.1 h
  have hblanks : words (sep ++ ds) = words ds := by
    clear h hne
    induction sep with
    | nil => rfl
    | cons d sep ih =>
      obtain ⟨hd, hsep⟩ := List.forall_mem_cons.1 hsep
      rw [List.cons_append, words_cons_blank hd, ih hsep]
  rw [List.append_assoc, List.cons_append, words_append_blank hc, hblanks]

/-- The words of texts with blanks between them are those of each, in order. -/
theorem words_intercalate (hne : sep ≠ []) (h : ∀ c ∈ sep, isBlank c = true)
    (texts : List (List Char)) : words (sep.intercalate texts) = texts.flatMap words := by
  induction texts with
  | nil => rfl
  | cons cs texts ih =>
    cases texts with
    | nil => rw [List.intercalate_singleton, List.flatMap_singleton]
    | cons ds texts =>
      rw [List.intercalate_cons_cons, words_append_blanks hne h, ih]
      rfl

/-! ## Single words -/

/-- A text without blanks is one word, when it is not empty. -/
theorem words_of_solid (hne : w ≠ []) (h : ∀ c ∈ w, isBlank c = false) : words w = [w] := by
  rw [words_eq, List.splitOnP_eq_singleton h]
  simp [hne]

/-- A word has no blank. -/
theorem solid_of_mem_words (hw : w ∈ words cs) : ∀ c ∈ w, isBlank c = false :=
  eq_false_of_mem_pieces (List.mem_filter.1 hw).1

/-- A text has no word when it has nothing but blanks. -/
theorem words_eq_nil_iff : words cs = [] ↔ ∀ c ∈ cs, isBlank c = true := by
  constructor
  · intro h
    induction cs with
    | nil => simp
    | cons d cs ih =>
      by_cases hd : isBlank d = true
      · rw [words_cons_blank hd] at h
        exact List.forall_mem_cons.2 ⟨hd, ih h⟩
      · rw [words_eq, List.splitOnP_cons_eq_if_modifyHead, if_neg hd] at h
        obtain ⟨first, later, hpieces⟩ :=
          List.exists_cons_of_ne_nil (List.splitOnP_ne_nil isBlank cs)
        rw [hpieces] at h
        simp at h
  · intro h
    induction cs with
    | nil => rfl
    | cons d cs ih =>
      obtain ⟨hd, hcs⟩ := List.forall_mem_cons.1 h
      rw [words_cons_blank hd, ih hcs]

end

/-! ## Normalised texts -/

theorem hasInk_eq_false_iff {s : String} : hasInk s = false ↔ words s.toList = [] := by
  rw [words_eq_nil_iff, hasInk, List.any_eq_false]
  simp

theorem toList_normalizeSpace (s : String) :
    (normalizeSpace s).toList = [' '].intercalate (words s.toList) := by
  rw [normalizeSpace, String.toList_intercalate, List.map_map]
  have hid : String.toList ∘ String.ofList = id := funext fun _ => String.toList_ofList
  rw [hid, List.map_id]
  rfl

/-- Normalising keeps the words. -/
theorem words_normalizeSpace (s : String) : words (normalizeSpace s).toList = words s.toList := by
  rw [toList_normalizeSpace, words_intercalate (by simp) (List.all_eq_true.1 (by decide))]
  have hself : ∀ w ∈ words s.toList, words w = [w] := fun w hw =>
    words_of_solid (ne_nil_of_mem_words hw) (solid_of_mem_words hw)
  rw [List.flatMap_def, List.map_congr_left hself, ← List.flatMap_def, List.flatMap_singleton']

theorem normalizeSpace_eq_empty_iff {s : String} : normalizeSpace s = "" ↔ hasInk s = false := by
  rw [hasInk_eq_false_iff]
  constructor
  · intro h
    rw [← words_normalizeSpace, h]
    rfl
  · intro h
    rw [normalizeSpace, h]
    rfl

end SchemaFamily
