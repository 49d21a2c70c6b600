import SchemaFamily.Proofs.Xml.Feeding
import SchemaFamily.Proofs.Xml.Positions
import SchemaFamily.Proofs.Xml.Respelling
import SchemaFamily.Proofs.Xml.Tags

/-
  Texts in which a tag is replaced. What is cut off a text does not depend on what follows, so in
  front of the tag both texts have the same pieces (`scanFrom_append`), and behind it the same
  further on by as many bytes as the tag is longer (`scanFrom_shift`). Their places are the same in
  front of the tag and on later lines than that on which it ends (`position_front`,
  `position_behind`). So a text in which an import spells its path differently respells the text,
  with all columns kept that the tag cannot move (`textRespells_of_tag`).
-/

namespace SchemaFamily

namespace Xml

/-! ## In front of a tag -/

/-- The scan with pieces in front. -/
def Scan.behind (earlier : List (Located Markup)) (more : Scan) : Scan :=
  ⟨earlier ++ more.pieces, more.fault⟩

/-- What is found is found at the offset of a rest of the text. -/
theorem le_offset_of_mem {offset : Nat} {cs : List Char} {found : Located Markup}
    (h : found ∈ (scanFrom offset cs).pieces) : offset ≤ found.offset := by
  fun_induction scanFrom offset cs with
  | case1 => cases h
  | case2 => cases h
  | case3 offset inner piece hpiece ih =>
    rcases List.mem_cons.1 h with rfl | h
    · exact Nat.le_refl _
    · exact (by omega : offset ≤ offset + 1 + piece.size).trans (ih h)
  | case4 offset first inner hfirst raw ih =>
    rcases List.mem_cons.1 h with rfl | h
    · exact Nat.le_refl _
    · exact (Nat.le_add_right _ _).trans (ih h)

theorem prefix_of_byteLength_le {taken later front rest : List Char}
    (h : taken ++ later = front ++ rest) (hle : byteLength taken ≤ byteLength front) :
    ∃ more, front = taken ++ more ∧ later = more ++ rest := by
  rcases List.append_eq_append_iff.1 h with ⟨more, hfront, hlater⟩ | ⟨more, htaken, hrest⟩
  · exact ⟨more, hfront, hlater⟩
  · rw [htaken, byteLength_append] at hle
    cases more with
    | nil => exact ⟨[], by simpa using htaken.symm, by simpa using hrest.symm⟩
    | cons c more =>
      have hpos := c.utf8Size_pos
      rw [byteLength_cons] at hle
      omega

/-- The first piece of a text is found at its start. -/
theorem offset_eq_of_pieces {offset : Nat} {cs : List Char} {found : Located Markup}
    {later : List (Located Markup)} (h : (scanFrom offset cs).pieces = found :: later) :
    found.offset = offset := by
  fun_induction scanFrom offset cs with
  | case1 => cases h
  | case2 => cases h
  | case3 => rw [← (List.cons.inj h).1]
  | case4 => rw [← (List.cons.inj h).1]

/-- Where the first piece of a text that starts with markup comes from. -/
theorem exists_read_of_pieces {offset : Nat} {inner : List Char} {first : Located Markup}
    {later : List (Located Markup)}
    (h : (scanFrom offset ('<' :: inner)).pieces = first :: later) :
    ∃ piece, readMarkup offset inner = .ok piece ∧ first = ⟨offset, piece.markup⟩ ∧
      (scanFrom (offset + 1 + piece.size) piece.later).pieces = later := by
  cases hread : readMarkup offset inner with
  | error fault =>
    rw [scanFrom_fault hread] at h
    cases h
  | ok piece =>
    rw [scanFrom_markup hread] at h
    obtain ⟨rfl, hlater⟩ := List.cons.inj h
    exact ⟨piece, rfl, rfl, hlater⟩

theorem eq_nil_of_byteLength {cs : List Char} (h : byteLength cs = 0) : cs = [] := by
  cases cs with
  | nil => rfl
  | cons c cs =>
    have hpos := c.utf8Size_pos
    rw [byteLength_cons] at h
    omega

/-- What a text is cut into in front of a tag does not depend on what comes from there on. -/
theorem scanFrom_append {offset : Nat} {front more : List Char}
    {earlier later : List (Located Markup)} {found : Located Markup}
    (h : (scanFrom offset (front ++ '<' :: more)).pieces = earlier ++ found :: later)
    (hoffset : found.offset = offset + byteLength front) (more' : List Char) :
    scanFrom offset (front ++ '<' :: more') =
      .behind earlier (scanFrom found.offset ('<' :: more')) := by
  induction earlier generalizing offset front with
  | nil =>
    have hstart := offset_eq_of_pieces h
    have hfront : front = [] := eq_nil_of_byteLength (by omega)
    rw [hfront, hstart]
    rfl
  | cons piece earlier ih =>
    obtain ⟨raw, front, rfl, hraw, hfront⟩ := exists_run front
    have hmarkup (more : List Char) : StartsMarkup (front ++ '<' :: more) := by
      cases front with
      | nil => exact startsMarkup_cons more
      | cons c front => exact fun d hd => hfront d hd
    by_cases hne : raw = []
    · subst hne
      obtain ⟨inner, hinner⟩ : ∃ inner, front ++ '<' :: more = '<' :: inner := by
        cases front with
        | nil => exact ⟨more, rfl⟩
        | cons c front =>
          obtain rfl := hfront c rfl
          exact ⟨front ++ '<' :: more, rfl⟩
      rw [List.nil_append, hinner] at h
      rw [List.nil_append] at hoffset ⊢
      obtain ⟨read, hread, rfl, hpieces⟩ := exists_read_of_pieces h
      have hfound : found ∈ (scanFrom (offset + 1 + read.size) read.later).pieces := by
        rw [hpieces]
        exact List.mem_append_right _ List.mem_cons_self
      have hle := le_offset_of_mem hfound
      obtain ⟨taken, rfl, hsize, hwherever⟩ := readMarkup_append hread
      -- The tag is found behind this piece, so the piece is taken from what is in front of the tag.
      have htaken : byteLength ('<' :: taken) = 1 + read.size := by
        rw [byteLength_cons, hsize]
        rfl
      have hsplit : ('<' :: taken) ++ read.later = front ++ '<' :: more := hinner.symm
      obtain ⟨front, rfl, hlater⟩ := prefix_of_byteLength_le hsplit (by omega)
      rw [byteLength_append, htaken] at hoffset
      have hmore := ih (hlater ▸ hpieces) (by omega)
      rw [List.append_assoc, List.cons_append,
        scanFrom_markup (hwherever offset (front ++ '<' :: more')), hmore]
      rfl
    · rw [List.append_assoc, scanFrom_text hne hraw (hmarkup more)] at h
      obtain ⟨rfl, hpieces⟩ := List.cons.inj h
      have hmore := ih hpieces (by rw [hoffset, byteLength_append, Nat.add_assoc])
      rw [List.append_assoc, scanFrom_text hne hraw (hmarkup more'), hmore]
      rfl

/-! ## Behind a tag -/

/-- What is found, further on. -/
def Located.shift {α : Type} (n : Nat) (found : Located α) : Located α :=
  ⟨found.offset + n, found.item⟩

/-- What is found in a text, all further on. -/
def Scan.shift (n : Nat) (found : Scan) : Scan :=
  ⟨found.pieces.map (.shift n), found.fault.map (.shift n)⟩

theorem readDeclaration_shift (offset n : Nat) (cs : List Char) :
    readDeclaration (offset + n) cs = (readDeclaration offset cs).mapError (.shift n) := by
  have hnamed (m : Nat) : offset + n + 2 + m = offset + 2 + m + n := by omega
  unfold readDeclaration
  split <;> (try split) <;> (try split) <;> (try split) <;>
    simp only [Except.mapError, Located.shift, hnamed]

theorem readMarkup_shift (offset n : Nat) (cs : List Char) :
    readMarkup (offset + n) cs = (readMarkup offset cs).mapError (.shift n) := by
  unfold readMarkup
  split
  · exact readDeclaration_shift offset n _
  · split
    · split <;> rfl
    · rfl
  · split <;> rfl

/-- A text further on has the same pieces further on. -/
theorem scanFrom_shift (offset n : Nat) (cs : List Char) :
    scanFrom (offset + n) cs = (scanFrom offset cs).shift n := by
  fun_induction scanFrom offset cs with
  | case1 =>
    rw [scanFrom]
    rfl
  | case2 offset inner fault hfault =>
    rw [scanFrom_fault (by rw [readMarkup_shift, hfault, Except.mapError])]
    rfl
  | case3 offset inner piece hpiece ih =>
    have hoffset : offset + n + 1 + piece.size = offset + 1 + piece.size + n := by omega
    rw [scanFrom_markup (by rw [readMarkup_shift, hpiece, Except.mapError]), hoffset, ih]
    rfl
  | case4 offset first inner hfirst raw ih =>
    have hoffset : offset + n + byteLength raw = offset + byteLength raw + n := by omega
    rw [scanFrom]
    · rw [hoffset, ih]
      rfl
    · exact hfirst

/-! ## Places around a tag -/

theorem positionFrom_front {front : List Char} {offset first : Nat}
    (h : offset ≤ first + byteLength front) (line start : Nat) (back : List Char) :
    positionFrom offset line start (lineStarts first (front ++ back)) =
      positionFrom offset line start (lineStarts first front) := by
  induction front generalizing first line start with
  | nil =>
    rw [byteLength_nil, Nat.add_zero] at h
    rw [List.nil_append, lineStarts]
    rcases hstarts : lineStarts first back with _ | ⟨next, later⟩
    · rfl
    · have hmem : next ∈ lineStarts first back := hstarts ▸ List.mem_cons_self
      have hnext := le_of_mem_lineStarts hmem
      rw [positionFrom, positionFrom, if_neg (by omega)]
  | cons c front ih =>
    rw [byteLength_cons, ← Nat.add_assoc] at h
    rw [List.cons_append, lineStarts, lineStarts]
    split
    · next hc =>
      subst hc
      have hone : '\n'.utf8Size = 1 := rfl
      rw [hone] at h
      rw [positionFrom, positionFrom, ih h]
    · exact ih h line start

/-- The place of an offset does not depend on what is behind it. -/
theorem position_front {front : List Char} {offset : Nat} (h : offset ≤ byteLength front)
    (back : List Char) :
    (LineIndex.of (front ++ back)).position offset = (LineIndex.of front).position offset :=
  positionFrom_front (by omega) 1 0 back

theorem lineStarts_shift (offset n : Nat) (cs : List Char) :
    lineStarts (offset + n) cs = (lineStarts offset cs).map (· + n) := by
  induction cs generalizing offset with
  | nil => rfl
  | cons c cs ih =>
    rw [lineStarts, lineStarts]
    split
    · rw [Nat.add_right_comm, ih, List.map_cons]
    · rw [Nat.add_right_comm, ih]

theorem positionFrom_shift (offset n line start : Nat) (starts : List Nat) :
    positionFrom (offset + n) line (start + n) (starts.map (· + n)) =
      positionFrom offset line start starts := by
  induction starts generalizing line start with
  | nil => rw [List.map_nil, positionFrom, positionFrom, Nat.add_sub_add_right]
  | cons next later ih =>
    rw [List.map_cons, positionFrom, positionFrom, ih, Nat.add_sub_add_right]
    simp only [Nat.add_le_add_iff_right]

theorem positionFrom_behind {front : List Char} {offset first : Nat}
    (h : first + byteLength front ≤ offset) (line start : Nat) (back : List Char) :
    ∃ start', positionFrom offset line start (lineStarts first (front ++ back)) =
      positionFrom offset (line + front.count '\n') start'
        (lineStarts (first + byteLength front) back) := by
  induction front generalizing first line start with
  | nil => exact ⟨start, rfl⟩
  | cons c front ih =>
    rw [byteLength_cons, ← Nat.add_assoc] at h ⊢
    rw [List.cons_append, lineStarts, List.count_cons]
    split
    · next hc =>
      subst hc
      have hone : '\n'.utf8Size = 1 := rfl
      rw [hone] at h ⊢
      obtain ⟨start', hstart⟩ := ih h (line + 1) (first + 1)
      refine ⟨start', ?_⟩
      rw [positionFrom, if_pos (by omega), hstart, beq_self_eq_true, if_pos rfl, Nat.add_assoc,
        Nat.add_comm 1]
    · next hc =>
      obtain ⟨start', hstart⟩ := ih h line start
      refine ⟨start', ?_⟩
      rw [hstart, if_neg (by simpa using hc), Nat.add_zero]

/-- The place of an offset behind one of two texts with as many lines is that behind the other, or
    both places are on the lines on which these end. -/
theorem position_behind {front front' : List Char} (h : lineAfter front = lineAfter front')
    (back : List Char) (n : Nat) :
    (LineIndex.of (front ++ back)).position (n + byteLength front) =
        (LineIndex.of (front' ++ back)).position (n + byteLength front') ∨
      ((LineIndex.of (front ++ back)).position (n + byteLength front)).line = lineAfter front ∧
        ((LineIndex.of (front' ++ back)).position (n + byteLength front')).line =
          lineAfter front' := by
  have hplace (front : List Char) : ∃ start,
      (LineIndex.of (front ++ back)).position (n + byteLength front) =
        positionFrom (n + byteLength front) (lineAfter front) start
          ((lineStarts 0 back).map (· + byteLength front)) := by
    have hle : 0 + byteLength front ≤ n + byteLength front := by omega
    obtain ⟨start, hstart⟩ := positionFrom_behind hle 1 0 back
    refine ⟨start, ?_⟩
    rw [LineIndex.position, LineIndex.of, hstart, lineStarts_shift, lineAfter, Nat.add_comm 1]
  obtain ⟨start, hstart⟩ := hplace front
  obtain ⟨start', hstart'⟩ := hplace front'
  rw [hstart, hstart', ← h]
  rcases lineStarts 0 back with _ | ⟨next, later⟩
  · exact .inr ⟨rfl, rfl⟩
  · rw [List.map_cons, List.map_cons, positionFrom, positionFrom]
    by_cases hle : next ≤ n
    · rw [if_pos (by omega), if_pos (by omega), positionFrom_shift, positionFrom_shift]
      exact .inl rfl
    · rw [if_neg (by omega), if_neg (by omega)]
      exact .inr ⟨rfl, rfl⟩

/-! ## Another tag in its place -/

theorem pairwise_pieces (offset : Nat) (cs : List Char) :
    (scanFrom offset cs).pieces.Pairwise fun found later => found.offset ≤ later.offset := by
  fun_induction scanFrom offset cs with
  | case1 => exact .nil
  | case2 => exact .nil
  | case3 offset inner piece hpiece ih =>
    refine .cons (fun later hlater => ?_) ih
    have := le_offset_of_mem hlater
    dsimp only
    omega
  | case4 offset first inner hfirst raw ih =>
    refine .cons (fun later hlater => ?_) ih
    have := le_offset_of_mem hlater
    dsimp only
    omega

section

variable {kept : Position → Bool} {known : EntityMap}

theorem PiecesRespell.append {pieces pieces' later later' : List (Position × Markup)}
    (h : PiecesRespell kept known pieces pieces')
    (hlater : PiecesRespell kept (pieces.foldl (fun known piece => piece.2.declares known) known)
      later later') :
    PiecesRespell kept known (pieces ++ later) (pieces' ++ later') := by
  induction h with
  | nil => exact hlater
  | cons hplace hfirst _ ih => exact .cons hplace hfirst (ih hlater)

/-- The same pieces at places that are the same but for columns that are not kept. -/
theorem PiecesRespell.of_places {placed placed' : Located Markup → Position × Markup}
    {pieces : List (Located Markup)} (hsame : ∀ found, (placed found).2 = (placed' found).2)
    (h : ∀ found ∈ pieces, (placed found).1.blur kept = (placed' found).1.blur kept)
    (known : EntityMap) : PiecesRespell kept known (pieces.map placed) (pieces.map placed') := by
  induction pieces generalizing known with
  | nil => exact .nil known
  | cons found later ih =>
    have hmore := ih fun found hfound => h found (List.mem_cons_of_mem _ hfound)
    exact .cons (h found List.mem_cons_self) (hsame found ▸ .same _) (hmore _)

end

/-- The body of a tag: it is no declaration or instruction, and nothing in it ends the tag. -/
structure IsTagBody (body : List Char) : Prop where
  bang : body.head? ≠ some '!'
  question : body.head? ≠ some '?'
  steps : body.foldlM tagStep none = some none

theorem IsTagBody.read {body : List Char} (h : IsTagBody body) (offset : Nat)
    (later : List Char) :
    readMarkup offset (body ++ '>' :: later) =
      .ok ⟨tagOfBody body, byteLength body + 1, later⟩ := by
  have hcut : cutAt tagStep none (body ++ '>' :: later) = some (body, later) :=
    cutAt_append h.steps rfl later
  cases body with
  | nil => exact readMarkup_of_cutAt rfl (by decide) (by decide) hcut
  | cons c body =>
    exact readMarkup_of_cutAt rfl (fun hc => h.bang (congrArg some hc))
      (fun hc => h.question (congrArg some hc)) hcut

instance (p q : Position) : Decidable (p.Before q) := inferInstanceAs (Decidable (_ ∨ _))

/-- The columns that a tag behind a text does not move, however it is spelled: those on other lines
    than the one on which it ends, and those up to its start. -/
def unmoved (front body : List Char) (p : Position) : Bool :=
  p.line != lineAfter (front ++ body) ||
    !decide (((LineIndex.of front).position (byteLength front)).Before p)

section

variable {front body body' back : List Char}

/-- What is behind the tag on the line on which it ends may be moved. -/
theorem blur_unmoved {text : List Char} {offset : Nat} (hfront : front <+: text)
    (hoffset : byteLength front < offset)
    (hline : ((LineIndex.of text).position offset).line = lineAfter (front ++ body)) :
    ((LineIndex.of text).position offset).blur (unmoved front body) =
      ⟨lineAfter (front ++ body), 0⟩ := by
  obtain ⟨rest, rfl⟩ := hfront
  have hbefore : ((LineIndex.of front).position (byteLength front)).Before
      ((LineIndex.of (front ++ rest)).position offset) := by
    rw [← position_front (Nat.le_refl _) rest]
    exact (marks_position _ _).before (marks_position _ _) hoffset
  rw [Position.blur, if_neg, hline]
  simp [unmoved, hline, hbefore]

/-- Behind a tag places are the same but for the columns that it moves. -/
theorem blur_position_behind (hlines : body.count '\n' = body'.count '\n') (n : Nat) :
    ((LineIndex.of (front ++ '<' :: body ++ ['>'] ++ back)).position
        (n + byteLength (front ++ '<' :: body ++ ['>']))).blur (unmoved front body) =
      ((LineIndex.of (front ++ '<' :: body' ++ ['>'] ++ back)).position
        (n + byteLength (front ++ '<' :: body' ++ ['>']))).blur (unmoved front body) := by
  have hline (body : List Char) :
      lineAfter (front ++ '<' :: body ++ ['>']) = lineAfter (front ++ body) := by
    simp [lineAfter]
  have hlines : lineAfter (front ++ body') = lineAfter (front ++ body) := by
    rw [lineAfter, lineAfter, List.count_append, List.count_append, hlines]
  have hfront (body : List Char) : front <+: front ++ '<' :: body ++ ['>'] ++ back :=
    ⟨'<' :: body ++ ['>'] ++ back, by simp⟩
  have hlonger (body : List Char) :
      byteLength front < n + byteLength (front ++ '<' :: body ++ ['>']) := by
    have hone : '<'.utf8Size = 1 := rfl
    rw [byteLength_append, byteLength_append, byteLength_cons]
    omega
  have hends : lineAfter (front ++ '<' :: body ++ ['>']) =
      lineAfter (front ++ '<' :: body' ++ ['>']) := by
    rw [hline, hline, hlines]
  rcases position_behind hends back n with heq | ⟨hl, hl'⟩
  · rw [heq]
  · rw [hline] at hl hl'
    rw [blur_unmoved (hfront body) (hlonger body) hl,
      blur_unmoved (hfront body') (hlonger body') (hl'.trans hlines)]

/-- A text with a tag in it is scanned from its start, when there is no byte order mark. -/
theorem found_eq_scan {text : String}
    (htext : text.toList = front ++ '<' :: body ++ ['>'] ++ back)
    (hmark : front.head? ≠ some '\uFEFF') :
    found text = scan (front ++ '<' :: (body ++ '>' :: back)) := by
  have happend : front ++ '<' :: body ++ ['>'] ++ back =
      front ++ '<' :: (body ++ '>' :: back) := by simp
  have hhead : (front ++ '<' :: (body ++ '>' :: back)).head? ≠ some '\uFEFF' := by
    cases front with
    | nil => simp
    | cons c front => exact hmark
  rw [found, htext, happend, dropByteOrderMark_of_ne hhead]

/-- The pieces of a text with a tag in it, when those in front of the tag are known. -/
theorem found_of_tag {text : String} {earlier : List (Located Markup)}
    (htext : text.toList = front ++ '<' :: body ++ ['>'] ++ back)
    (hmark : front.head? ≠ some '\uFEFF') (hbody : IsTagBody body)
    (hscan : scan (front ++ '<' :: (body ++ '>' :: back)) =
      .behind earlier (scanFrom (byteLength front) ('<' :: (body ++ '>' :: back)))) :
    found text = .behind earlier (.cons (byteLength front) (tagOfBody body)
      ((scanFrom 0 back).shift (byteLength (front ++ '<' :: body ++ ['>'])))) := by
  have hoffset : byteLength front + 1 + (byteLength body + 1) =
      0 + byteLength (front ++ '<' :: body ++ ['>']) := by
    have hone : '<'.utf8Size = 1 := rfl
    have hone' : '>'.utf8Size = 1 := rfl
    rw [byteLength_append, byteLength_append, byteLength_cons, byteLength_cons, byteLength_nil]
    omega
  rw [found_eq_scan htext hmark, hscan, scanFrom_markup (hbody.read _ _), hoffset,
    scanFrom_shift]

/-- A text with another tag in the place of a tag of an import, which spells its path differently,
    respells the text. -/
theorem textRespells_of_tag {text text' : String} {entities : EntityMap}
    {earlier later : List (Located Markup)}
    (htext : text.toList = front ++ '<' :: body ++ ['>'] ++ back)
    (htext' : text'.toList = front ++ '<' :: body' ++ ['>'] ++ back)
    (hmark : front.head? ≠ some '\uFEFF') (hbody : IsTagBody body) (hbody' : IsTagBody body')
    (hstands : (found text).pieces = earlier ++ ⟨byteLength front, tagOfBody body⟩ :: later)
    (hspelled : (tagOfBody body).Respells
      (earlier.foldl (fun known found => found.item.declares known) entities) (tagOfBody body'))
    (hlines : body.count '\n' = body'.count '\n') :
    TextRespells (unmoved front body) entities text text' := by
  rw [found_eq_scan htext hmark] at hstands
  have hscan (more : List Char) := scanFrom_append hstands (Nat.zero_add _).symm more
  have hearlier : ∀ found ∈ earlier, found.offset ≤ byteLength front := by
    intro found hfound
    have hsorted := pairwise_pieces 0 (front ++ '<' :: (body ++ '>' :: back))
    rw [← scan, hstands] at hsorted
    exact (List.pairwise_append.1 hsorted).2.2 found hfound _ List.mem_cons_self
  have hplace (body : List Char) (n : Nat) (h : n ≤ byteLength front) :
      (LineIndex.of (front ++ '<' :: body ++ ['>'] ++ back)).position n =
        (LineIndex.of front).position n := by
    rw [List.append_assoc, List.append_assoc]
    exact position_front h _
  constructor
  · rw [found_of_tag htext hmark hbody (hscan _), found_of_tag htext' hmark hbody' (hscan _)]
    simp only [Scan.behind, Scan.cons, Scan.shift, List.map_append, List.map_cons, List.map_map]
    refine .append (.of_places ?_ (fun found hfound => ?_) _)
      (.cons ?_ ?_ (.of_places ?_ (fun found _ => ?_) _))
    · exact fun _ => rfl
    · simp only [place, htext, htext', hplace _ _ (hearlier found hfound)]
    · simp only [htext, htext', hplace _ _ (Nat.le_refl _)]
    · rw [List.foldl_map]
      exact hspelled
    · exact fun _ => rfl
    · simp only [Function.comp, place, htext, htext']
      exact blur_position_behind hlines found.offset
  · rw [found_of_tag htext hmark hbody (hscan _), found_of_tag htext' hmark hbody' (hscan _)]
    simp only [Scan.behind, Scan.cons, Scan.shift]
    rcases (scanFrom 0 back).fault with _ | fault
    · rfl
    · simp only [Option.map_some, place, htext, htext', Located.shift,
        blur_position_behind hlines fault.offset]

end

end Xml

end SchemaFamily
