import Mathlib.Data.List.Infix
import Mathlib.Data.List.Induction
import SchemaFamily.Xml.Markup

/-
  Where pieces of markup end. A cut is made where the steps over the characters before it all go on
  and the next one stops (`cutAt_append`, `exists_of_cutAt`). So a tag ends at a `>` that all quotes
  before it are closed for, and a comment and an instruction end where they first hold what closes
  them. Every piece ends with a `>`, so its size is that of the text it takes, and it is read so
  whatever follows (`readMarkup_append`).
-/

namespace SchemaFamily.Xml

section

variable {σ : Type} {step : σ → Char → Option σ} {s s' : σ} {cs : List Char}

theorem stopsAt_append (h : cs.foldlM step s = some s') (n : Nat) (ds : List Char) :
    stopsAt step n s (cs ++ ds) = stopsAt step (n + cs.length) s' ds := by
  induction cs generalizing n s with
  | nil =>
    cases h
    rfl
  | cons c cs ih =>
    rw [List.foldlM_cons, Option.bind_eq_bind, Option.bind_eq_some_iff] at h
    obtain ⟨t, ht, hcs⟩ := h
    rw [List.cons_append, stopsAt, ht]
    dsimp only
    rw [ih hcs, List.length_cons, Nat.add_assoc, Nat.add_comm 1]

/-- A text is cut where the steps first stop. -/
theorem cutAt_append (h : cs.foldlM step s = some s') {c : Char} (hstop : step s' c = none)
    (later : List Char) : cutAt step s (cs ++ c :: later) = some (cs, later) := by
  rw [cutAt, stopsAt_append h, stopsAt, hstop, Option.map_some, Nat.zero_add, List.take_left,
    ← List.drop_drop, List.drop_left]
  rfl

theorem exists_of_stopsAt {n m : Nat} (h : stopsAt step n s cs = some m) :
    ∃ body c later s', cs = body ++ c :: later ∧ m = n + body.length ∧
      body.foldlM step s = some s' ∧ step s' c = none := by
  induction cs generalizing n s with
  | nil => cases h
  | cons c cs ih =>
    rw [stopsAt] at h
    split at h
    · next hstop =>
      cases h
      exact ⟨[], c, cs, s, rfl, rfl, rfl, hstop⟩
    · next t ht =>
      obtain ⟨body, d, later, s', rfl, rfl, hbody, hstop⟩ := ih h
      refine ⟨c :: body, d, later, s', rfl, ?_, ?_, hstop⟩
      · rw [List.length_cons, Nat.add_assoc, Nat.add_comm 1]
      · rw [List.foldlM_cons, ht]
        exact hbody

/-- Where a text is cut the steps stop. -/
theorem exists_of_cutAt {body later : List Char} (h : cutAt step s cs = some (body, later)) :
    ∃ c s', cs = body ++ c :: later ∧ body.foldlM step s = some s' ∧ step s' c = none := by
  rw [cutAt, Option.map_eq_some_iff] at h
  obtain ⟨n, hn, hcut⟩ := h
  obtain ⟨body', c, later', s', rfl, rfl, hbody, hstop⟩ := exists_of_stopsAt hn
  rw [Nat.zero_add, List.take_left, ← List.drop_drop, List.drop_left, Prod.mk.injEq] at hcut
  obtain ⟨rfl, rfl⟩ := hcut
  exact ⟨c, s', rfl, hbody, hstop⟩

/-- The steps over one character more. -/
theorem foldlM_concat (h : cs.foldlM step s = some s') (c : Char) :
    (cs ++ [c]).foldlM step s = step s' c := by
  rw [List.foldlM_append, h]
  show [c].foldlM step s' = _
  rw [List.foldlM_cons]
  cases step s' c <;> rfl

/-- Steps that all stay where they are. -/
theorem foldlM_of_stays (h : ∀ c ∈ cs, step s c = some s) : cs.foldlM step s = some s := by
  induction cs with
  | nil => rfl
  | cons c cs ih =>
    rw [List.foldlM_cons, h c List.mem_cons_self]
    exact ih fun c hc => h c (List.mem_cons_of_mem _ hc)

end

/-! ## Comments -/

theorem commentStep_of_ne {seen hyphens : Nat} {c : Char} (hgt : c ≠ '>') (hhyphen : c ≠ '-') :
    commentStep (seen, hyphens) c = some (seen + 1, 0) := by
  rw [commentStep]
  · exact hgt
  · exact hhyphen

/-- The steps over what a comment may hold. Hyphens that are counted stand at its end, those that
    open the comment apart. -/
theorem foldlM_commentStep {cs : List Char} (h : ¬ "-->".toList <:+: cs) :
    ∃ hyphens, cs.foldlM commentStep (2, 2) = some (2 + cs.length, hyphens) ∧
      (1 ≤ hyphens → 1 ≤ cs.length → ['-'] <:+ cs) ∧
      (2 ≤ hyphens → 2 ≤ cs.length → ['-', '-'] <:+ cs) := by
  induction cs using List.reverseRecOn with
  | nil => exact ⟨2, rfl, by simp, by simp⟩
  | append_singleton cs c ih =>
    obtain ⟨hyphens, hsteps, hone, htwo⟩ := ih fun hin => h (hin.trans ⟨[], [c], rfl⟩)
    rw [foldlM_concat hsteps, List.length_append, List.length_singleton]
    by_cases hhyphen : c = '-'
    · subst hhyphen
      refine ⟨hyphens + 1, rfl, fun _ _ => List.suffix_append _ _, fun hle hlen => ?_⟩
      obtain ⟨front, rfl⟩ := hone (by omega) (by omega)
      exact ⟨front, by simp⟩
    · refine ⟨0, ?_, by simp, by simp⟩
      by_cases hgt : c = '>'
      · subst hgt
        rw [commentStep, if_neg]
        · rfl
        · rintro ⟨hseen, hhyphens⟩
          obtain ⟨front, rfl⟩ := htwo hhyphens (by omega)
          exact h ⟨front, [], by simp⟩
      · exact commentStep_of_ne hgt hhyphen

/-- A comment ends where it is closed first. -/
theorem cutAt_comment {cs : List Char} (h : ¬ "-->".toList <:+: cs) (later : List Char) :
    cutAt commentStep (0, 0) ('-' :: '-' :: cs ++ ['-', '-'] ++ '>' :: later) =
      some ('-' :: '-' :: cs ++ ['-', '-'], later) := by
  obtain ⟨hyphens, hsteps, _⟩ := foldlM_commentStep h
  have hopened : ('-' :: '-' :: cs).foldlM commentStep (0, 0) = some (2 + cs.length, hyphens) :=
    hsteps
  have hclosed : ('-' :: '-' :: cs ++ ['-', '-']).foldlM commentStep (0, 0) =
      some (2 + cs.length + 1 + 1, hyphens + 1 + 1) := by
    rw [List.foldlM_append, hopened]
    rfl
  exact cutAt_append hclosed (by rw [commentStep, if_pos (by omega)]) later

theorem readMarkup_comment {cs : List Char} (h : ¬ "-->".toList <:+: cs) (offset : Nat)
    (later : List Char) :
    readMarkup offset ('!' :: '-' :: '-' :: cs ++ ['-', '-'] ++ '>' :: later) =
      .ok ⟨.comment, byteLength ('-' :: '-' :: cs ++ ['-', '-']) + 2, later⟩ := by
  have hcut := cutAt_comment h later
  have hopens : "--".toList.isPrefixOf ('-' :: '-' :: cs ++ ['-', '-']) = true :=
    List.isPrefixOf_iff_prefix.2 ⟨cs ++ ['-', '-'], rfl⟩
  simp only [List.cons_append] at hcut hopens ⊢
  rw [readMarkup, readDeclaration, hcut]
  dsimp only
  rw [if_pos hopens]

/-! ## Instructions -/

/-- The steps over what an instruction may hold: that a question mark is seen says that it ends with
    one. -/
theorem foldlM_instructionStep {cs : List Char} (h : ¬ "?>".toList <:+: cs) :
    ∃ mark, cs.foldlM instructionStep false = some mark ∧ (mark = true → ['?'] <:+ cs) := by
  induction cs using List.reverseRecOn with
  | nil => exact ⟨false, rfl, by simp⟩
  | append_singleton cs c ih =>
    obtain ⟨mark, hsteps, hmark⟩ := ih fun hin => h (hin.trans ⟨[], [c], rfl⟩)
    refine ⟨c == '?', ?_, fun hc => ?_⟩
    · rw [foldlM_concat hsteps, instructionStep]
      rintro rfl rfl
      obtain ⟨front, rfl⟩ := hmark rfl
      exact h ⟨front, [], by simp⟩
    · rw [beq_iff_eq.1 hc]
      exact List.suffix_append _ _

/-- An instruction ends where it is closed first. -/
theorem cutAt_instruction {cs : List Char} (h : ¬ "?>".toList <:+: '?' :: cs) (later : List Char) :
    cutAt instructionStep false ('?' :: cs ++ ['?'] ++ '>' :: later) =
      some ('?' :: cs ++ ['?'], later) := by
  obtain ⟨mark, hsteps, hmark⟩ := foldlM_instructionStep h
  have hclosed : ('?' :: cs ++ ['?']).foldlM instructionStep false = some true := by
    rw [foldlM_concat hsteps, instructionStep]
    · rfl
    · rintro rfl hc
      cases hc
  exact cutAt_append hclosed rfl later

theorem readMarkup_instruction {cs : List Char} (h : ¬ "?>".toList <:+: '?' :: cs) (offset : Nat)
    (later : List Char) :
    readMarkup offset ('?' :: cs ++ ['?'] ++ '>' :: later) =
      .ok ⟨.instruction, byteLength ('?' :: cs ++ ['?']) + 1, later⟩ := by
  have hcut := cutAt_instruction h later
  have hmore : '?' :: cs ++ ['?'] ≠ ['?'] := fun heq => by simpa using congrArg List.length heq
  simp only [List.cons_append] at hcut hmore ⊢
  rw [readMarkup, hcut]
  dsimp only
  rw [if_neg hmore]

/-! ## Character data -/

/-- The steps over what a character data section may hold: brackets that are counted stand at its
    end. -/
theorem foldlM_verbatimStep {cs : List Char} (h : ¬ "]]>".toList <:+: cs) :
    ∃ brackets, cs.foldlM verbatimStep 0 = some brackets ∧ (1 ≤ brackets → [']'] <:+ cs) ∧
      (2 ≤ brackets → [']', ']'] <:+ cs) := by
  induction cs using List.reverseRecOn with
  | nil => exact ⟨0, rfl, by simp, by simp⟩
  | append_singleton cs c ih =>
    obtain ⟨brackets, hsteps, hone, htwo⟩ := ih fun hin => h (hin.trans ⟨[], [c], rfl⟩)
    rw [foldlM_concat hsteps]
    by_cases hbracket : c = ']'
    · subst hbracket
      refine ⟨brackets + 1, rfl, fun _ => List.suffix_append _ _, fun hle => ?_⟩
      obtain ⟨front, rfl⟩ := hone (by omega)
      exact ⟨front, by simp⟩
    · refine ⟨0, ?_, by simp, by simp⟩
      by_cases hgt : c = '>'
      · subst hgt
        rw [verbatimStep, if_neg]
        intro hle
        obtain ⟨front, rfl⟩ := htwo hle
        exact h ⟨front, [], by simp⟩
      · rw [verbatimStep]
        · exact hgt
        · exact hbracket

/-- A character data section ends where it is closed first. -/
theorem readMarkup_verbatim {cs : List Char} (h : ¬ "]]>".toList <:+: cs) (offset : Nat)
    (later : List Char) :
    readMarkup offset ("![CDATA[".toList ++ cs ++ [']', ']'] ++ '>' :: later) =
      .ok ⟨.verbatim cs, byteLength ("[CDATA[".toList ++ cs ++ [']', ']']) + 2, later⟩ := by
  obtain ⟨brackets, hsteps, _⟩ := foldlM_verbatimStep h
  have hopened : ("[CDATA[".toList ++ cs).foldlM verbatimStep 0 = some brackets := hsteps
  have hclosed : ("[CDATA[".toList ++ cs ++ [']', ']']).foldlM verbatimStep 0 =
      some (brackets + 1 + 1) := by
    rw [List.foldlM_append, hopened]
    rfl
  have hcut := cutAt_append hclosed (by rw [verbatimStep, if_pos (by omega)]) later
  have hopens : "[CDATA[".toList.isPrefixOf ("[CDATA[".toList ++ cs ++ [']', ']']) = true :=
    List.isPrefixOf_iff_prefix.2 ⟨cs ++ [']', ']'], by rw [List.append_assoc]⟩
  have hcontent : (("[CDATA[".toList ++ cs ++ [']', ']']).drop 7).dropLast.dropLast = cs := by
    have hdrop : ("[CDATA[".toList ++ cs ++ [']', ']']).drop 7 = cs ++ [']'] ++ [']'] := by simp
    rw [hdrop, List.dropLast_concat, List.dropLast_concat]
  show (readDeclaration offset ('[' :: ("CDATA[".toList ++ cs ++ [']', ']'] ++ '>' :: later))) = _
  rw [readDeclaration]
  have hsame : '[' :: ("CDATA[".toList ++ cs ++ [']', ']'] ++ '>' :: later) =
      "[CDATA[".toList ++ cs ++ [']', ']'] ++ '>' :: later := rfl
  rw [hsame, hcut]
  dsimp only
  rw [if_pos hopens, hcontent]

/-! ## Document types -/

/-- All markup that the text opens it closes. -/
def Balanced (cs : List Char) : Prop := ∀ depth, cs.foldlM doctypeStep depth = some depth

namespace Balanced

variable {cs ds : List Char}

theorem append (h : Balanced cs) (h' : Balanced ds) : Balanced (cs ++ ds) := fun depth => by
  rw [List.foldlM_append, h depth]
  exact h' depth

theorem of_not_mem (hopens : '<' ∉ cs) (hcloses : '>' ∉ cs) : Balanced cs := fun depth =>
  foldlM_of_stays fun c hc => by
    have hlt : c ≠ '<' := fun heq => hopens (heq ▸ hc)
    have hgt : c ≠ '>' := fun heq => hcloses (heq ▸ hc)
    unfold doctypeStep
    split
    · exact absurd rfl hgt
    · exact absurd rfl hgt
    · exact absurd rfl hlt
    · rfl

/-- A text in brackets is balanced with them. -/
theorem enclose (h : Balanced cs) : Balanced ('<' :: cs ++ ['>']) := fun depth => by
  have hopened : ('<' :: cs).foldlM doctypeStep depth = some (depth + 1) := by
    rw [List.foldlM_cons]
    show doctypeStep depth '<' >>= _ = _
    cases depth <;> exact h _
  rw [foldlM_concat hopened]
  rfl

theorem flatMap {α : Type} {f : α → List Char} {items : List α}
    (h : ∀ item ∈ items, Balanced (f item)) : Balanced (items.flatMap f) := by
  induction items with
  | nil => exact fun _ => rfl
  | cons item items ih =>
    obtain ⟨hitem, hitems⟩ := List.forall_mem_cons.1 h
    exact hitem.append (ih hitems)

end Balanced

/-- A document type declaration ends where all markup in it is closed. -/
theorem readMarkup_doctype {cs : List Char} (h : Balanced cs) (hnamed : cs.dropWhile isSpace ≠ [])
    (offset : Nat) (later : List Char) :
    readMarkup offset ("!DOCTYPE".toList ++ cs ++ '>' :: later) =
      .ok ⟨.doctype (cs.dropWhile isSpace), byteLength ("DOCTYPE".toList ++ cs) + 2, later⟩ := by
  have hsteps : ("DOCTYPE".toList ++ cs).foldlM doctypeStep 0 = some 0 := h 0
  have hcut := cutAt_append (c := '>') hsteps rfl later
  have hopens : (("DOCTYPE".toList ++ cs).take 7).map Char.toUpper = "DOCTYPE".toList := rfl
  have hdrop : ("DOCTYPE".toList ++ cs).drop 7 = cs := rfl
  show readDeclaration offset ('D' :: ("OCTYPE".toList ++ cs ++ '>' :: later)) = _
  have hsame : 'D' :: ("OCTYPE".toList ++ cs ++ '>' :: later) =
      "DOCTYPE".toList ++ cs ++ '>' :: later := rfl
  rw [readDeclaration, hsame, hcut]
  dsimp only
  rw [if_pos hopens, hdrop]
  split
  · next hnil => exact absurd hnil hnamed
  · rfl

/-! ## Tags -/

theorem tagStep_none {c : Char} (hgt : c ≠ '>') (hdouble : c ≠ '"') (hsingle : c ≠ '\'') :
    tagStep none c = some none := by
  unfold tagStep
  split
  · exact absurd rfl hgt
  · exact absurd rfl hdouble
  · exact absurd rfl hsingle
  · rfl
  · next heq => cases heq

/-- The steps over what is outside quotes. -/
theorem foldlM_tagStep {cs : List Char} (h : ∀ c ∈ cs, c ≠ '>' ∧ c ≠ '"' ∧ c ≠ '\'') :
    cs.foldlM tagStep none = some none :=
  foldlM_of_stays fun c hc => tagStep_none (h c hc).1 (h c hc).2.1 (h c hc).2.2

/-- The steps over a value in quotes. -/
theorem foldlM_tagStep_quoted {quote : Char} (hquote : quote = '"' ∨ quote = '\'') {cs : List Char}
    (h : ∀ c ∈ cs, c ≠ quote) : (quote :: cs ++ [quote]).foldlM tagStep none = some none := by
  have hinner : cs.foldlM tagStep (some quote) = some (some quote) :=
    foldlM_of_stays fun c hc => by rw [tagStep, if_neg (h c hc)]
  have hopens : tagStep none quote = some (some quote) := by
    rcases hquote with rfl | rfl <;> rfl
  rw [List.cons_append, List.foldlM_cons, hopens]
  show (cs ++ [quote]).foldlM tagStep (some quote) = _
  rw [foldlM_concat hinner, tagStep, if_pos rfl]

/-! ## What pieces take -/

/-- Only a `>` ends anything. -/
def EndsPieces {σ : Type} (step : σ → Char → Option σ) : Prop := ∀ s c, step s c = none → c = '>'

theorem endsPieces_tagStep : EndsPieces tagStep := by
  intro s c h
  unfold tagStep at h
  split at h <;> first | rfl | cases h

theorem endsPieces_commentStep : EndsPieces commentStep := by
  intro s c h
  unfold commentStep at h
  split at h <;> first | rfl | cases h

theorem endsPieces_verbatimStep : EndsPieces verbatimStep := by
  intro s c h
  unfold verbatimStep at h
  split at h <;> first | rfl | cases h

theorem endsPieces_doctypeStep : EndsPieces doctypeStep := by
  intro s c h
  unfold doctypeStep at h
  split at h <;> first | rfl | cases h

theorem endsPieces_instructionStep : EndsPieces instructionStep := by
  intro s c h
  unfold instructionStep at h
  split at h <;> first | rfl | cases h

/-- What is read of a text by cutting it, and takes those bytes that are cut off and `extra` ones,
    is read in front of anything. What is cut off is one byte longer than what it holds. -/
theorem exists_taken {σ : Type} {step : σ → Char → Option σ} (extra : Nat)
    (hends : EndsPieces step) {s : σ} {c : Char} {cs body later : List Char} {markup : Markup}
    {read : Nat → List Char → Except (Located MarkupFault) Piece}
    (h : cutAt step s (c :: cs) = some (body, later))
    (hread : ∀ offset cs later, cutAt step s (c :: cs) = some (body, later) →
      read offset (c :: cs) = .ok ⟨markup, byteLength body + 1 + extra, later⟩) :
    ∃ taken, c :: cs = taken ++ later ∧
      byteLength taken + extra = byteLength body + 1 + extra ∧ ∀ offset later,
        read offset (taken ++ later) = .ok ⟨markup, byteLength body + 1 + extra, later⟩ := by
  obtain ⟨last, s', hcs, hbody, hstop⟩ := exists_of_cutAt h
  obtain ⟨taken, htaken⟩ : ∃ taken, body ++ [last] = c :: taken := by
    rw [List.append_cons] at hcs
    cases htaken : body ++ [last] with
    | nil => simp at htaken
    | cons d taken =>
      rw [htaken] at hcs
      exact ⟨taken, by rw [(List.cons.inj hcs).1]⟩
  refine ⟨body ++ [last], by rw [hcs, List.append_cons], ?_, fun offset later => ?_⟩
  · rw [hends s' last hstop, byteLength_append]
    rfl
  · have hcut := cutAt_append hbody hstop later
    rw [List.append_cons, htaken] at hcut
    rw [htaken]
    exact hread offset (taken ++ later) later hcut

theorem readDeclaration_append {offset : Nat} {cs : List Char} {piece : Piece}
    (h : readDeclaration offset cs = .ok piece) :
    ∃ taken, cs = taken ++ piece.later ∧ byteLength taken + 1 = piece.size ∧
      ∀ offset later, readDeclaration offset (taken ++ later) =
        .ok ⟨piece.markup, piece.size, later⟩ := by
  unfold readDeclaration at h
  split at h
  · split at h
    · next hbody =>
      split at h
      · next hopens =>
        cases h
        refine exists_taken 1 endsPieces_commentStep hbody fun offset cs later hcut => ?_
        simp only [readDeclaration, hcut, if_pos hopens]
      · cases h
    · cases h
  · split at h
    · next hbody =>
      split at h
      · next hopens =>
        cases h
        refine exists_taken 1 endsPieces_verbatimStep hbody fun offset cs later hcut => ?_
        simp only [readDeclaration, hcut, if_pos hopens]
      · cases h
    · cases h
  · split at h
    · next hbody =>
      split at h
      · next hopens =>
        split at h
        · cases h
        · next hnamed =>
          cases h
          refine exists_taken 1 endsPieces_doctypeStep hbody fun offset cs later hcut => ?_
          simp only [readDeclaration, hcut, if_pos hopens]
      · cases h
    · cases h
  · split at h
    · next hbody =>
      split at h
      · next hopens =>
        split at h
        · cases h
        · next hnamed =>
          cases h
          refine exists_taken 1 endsPieces_doctypeStep hbody fun offset cs later hcut => ?_
          simp only [readDeclaration, hcut, if_pos hopens]
      · cases h
    · cases h
  · cases h

/-- What is read as a piece is read so in front of anything, and takes as many bytes as it says. -/
theorem readMarkup_append {offset : Nat} {cs : List Char} {piece : Piece}
    (h : readMarkup offset cs = .ok piece) :
    ∃ taken, cs = taken ++ piece.later ∧ byteLength taken = piece.size ∧
      ∀ offset later, readMarkup offset (taken ++ later) =
        .ok ⟨piece.markup, piece.size, later⟩ := by
  unfold readMarkup at h
  split at h
  · obtain ⟨taken, rfl, hsize, hread⟩ := readDeclaration_append h
    refine ⟨'!' :: taken, rfl, ?_, fun offset later => ?_⟩
    · rw [byteLength_cons, Nat.add_comm, ← hsize]
      rfl
    · rw [List.cons_append, readMarkup, hread]
  · split at h
    · next hbody =>
      split at h
      · cases h
      · next hmore =>
        cases h
        refine exists_taken 0 endsPieces_instructionStep hbody fun offset cs later hcut => ?_
        simp only [readMarkup, hcut, if_neg hmore, Nat.add_zero]
    · cases h
  · next hbang hquestion =>
    split at h
    · next hbody =>
      cases h
      cases cs with
      | nil => cases hbody
      | cons c cs =>
        refine exists_taken 0 endsPieces_tagStep hbody fun offset cs later hcut => ?_
        unfold readMarkup
        split
        · next heq => exact absurd (congrArg (· :: _) (List.cons.inj heq).1) (hbang _)
        · next heq => exact absurd (congrArg (· :: _) (List.cons.inj heq).1) (hquestion _)
        · rw [hcut]
    · cases h

/-- A piece takes as many bytes as it says. -/
theorem taken_of_readMarkup {offset : Nat} {cs : List Char} {piece : Piece}
    (h : readMarkup offset cs = .ok piece) :
    ∃ taken, cs = taken ++ piece.later ∧ byteLength taken = piece.size := by
  obtain ⟨taken, hcs, hsize, _⟩ := readMarkup_append h
  exact ⟨taken, hcs, hsize⟩

end SchemaFamily.Xml
