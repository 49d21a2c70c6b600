import Mathlib.Data.List.TakeWhile
import SchemaFamily.Proofs.Xml.Cuts
import SchemaFamily.Proofs.Xml.Feeding

/-
  Places of elements. Every element of a tree that was parsed comes from a tag in the text that is
  read behind a `<` (`exists_place`), and its line is the one on which this `<` stands, one more
  than the line breaks before it. After a byte order mark offsets are three bytes short, so there
  this holds of the tags that have as many bytes in front of them in their line; the line of another
  may be too small.
-/

namespace SchemaFamily.Xml

/-! ## Lines -/

/-- The line on which what follows `front` stands. -/
def lineAfter (front : List Char) : Nat := front.count '\n' + 1

/-- Number of bytes between the start of that line and what follows `front`. -/
def bytesInLine (front : List Char) : Nat := byteLength (front.reverse.takeWhile (· != '\n'))

theorem le_of_mem_lineStarts {start offset : Nat} {cs : List Char}
    (h : start ∈ lineStarts offset cs) : offset < start := by
  induction cs generalizing offset with
  | nil => cases h
  | cons c cs ih =>
    unfold lineStarts at h
    split at h
    · rcases List.mem_cons.1 h with rfl | h
      · exact Nat.lt_succ_self _
      · exact Nat.lt_of_succ_lt (ih h)
    · have := ih h
      omega

/-- No line starts up to the end of a text without line breaks. -/
theorem le_of_mem_lineStarts_append {start offset : Nat} {b c : List Char} (hb : '\n' ∉ b)
    (h : start ∈ lineStarts offset (b ++ c)) : offset + byteLength b < start := by
  induction b generalizing offset with
  | nil => exact le_of_mem_lineStarts h
  | cons x b ih =>
    rw [List.mem_cons, not_or] at hb
    rw [List.cons_append, lineStarts, if_neg (Ne.symm hb.1)] at h
    rw [byteLength_cons, ← Nat.add_assoc]
    exact ih hb.2 h

theorem positionFrom_line_of_lt {offset line start : Nat} {starts : List Nat}
    (h : ∀ next ∈ starts, offset < next) : (positionFrom offset line start starts).line = line := by
  cases starts with
  | nil => rfl
  | cons next later =>
    rw [positionFrom, if_neg (Nat.not_le.2 (h next List.mem_cons_self))]

/-- A later offset is on no earlier line. -/
theorem positionFrom_line_mono {offset offset' : Nat} (h : offset ≤ offset') (line start : Nat)
    (starts : List Nat) :
    (positionFrom offset line start starts).line ≤
      (positionFrom offset' line start starts).line := by
  induction starts generalizing line start with
  | nil => exact Nat.le_refl line
  | cons next later ih =>
    rw [positionFrom]
    split
    · next hle =>
      rw [positionFrom, if_pos (hle.trans h)]
      exact ih (line + 1) next
    · exact positionFrom_line offset' line start (next :: later)

theorem positionFrom_line_of_append {a rest : List Char} {first offset line start : Nat}
    (hle : first + byteLength a ≤ offset)
    (hrest : ∀ next ∈ lineStarts (first + byteLength a) rest, offset < next) :
    (positionFrom offset line start (lineStarts first (a ++ rest))).line =
      line + a.count '\n' := by
  induction a generalizing first line start with
  | nil =>
    rw [List.nil_append]
    exact positionFrom_line_of_lt hrest
  | cons x a ih =>
    rw [byteLength_cons, ← Nat.add_assoc] at hle hrest
    rw [List.cons_append, lineStarts, List.count_cons]
    split
    · next hx =>
      subst hx
      have hone : first + '\n'.utf8Size = first + 1 := rfl
      rw [hone] at hle hrest
      rw [positionFrom, if_pos (by omega), ih hle hrest, beq_self_eq_true, if_pos rfl]
      omega
    · next hx =>
      rw [ih hle hrest, if_neg (by simpa using hx), Nat.add_zero]

/-- The line of an offset is that of the text in front of it. -/
theorem line_position {a b c : List Char} {offset : Nat} (hb : '\n' ∉ b)
    (hle : byteLength a ≤ offset) (hge : offset ≤ byteLength (a ++ b)) :
    ((LineIndex.of (a ++ b ++ c)).position offset).line = lineAfter a := by
  rw [LineIndex.position, LineIndex.of, List.append_assoc,
    positionFrom_line_of_append (by omega), lineAfter, Nat.add_comm]
  intro next hnext
  have := le_of_mem_lineStarts_append hb hnext
  rw [byteLength_append] at hge
  omega

theorem byteLength_reverse (cs : List Char) : byteLength cs.reverse = byteLength cs := by
  induction cs with
  | nil => rfl
  | cons c cs ih =>
    rw [List.reverse_cons, byteLength_append, ih, byteLength_cons, byteLength_cons, byteLength_nil]
    omega

/-- The last line of a text, and what is before it. -/
theorem exists_lastLine (front : List Char) :
    ∃ a b, front = a ++ b ∧ '\n' ∉ b ∧ bytesInLine front = byteLength b ∧
      lineAfter front = lineAfter a := by
  have hsplit : front = (front.reverse.dropWhile (· != '\n')).reverse ++
      (front.reverse.takeWhile (· != '\n')).reverse := by
    rw [← List.reverse_append, List.takeWhile_append_dropWhile, List.reverse_reverse]
  have hnone : '\n' ∉ (front.reverse.takeWhile (· != '\n')).reverse := fun hmem =>
    absurd (List.mem_takeWhile_imp (List.mem_reverse.1 hmem)) (by decide)
  refine ⟨_, _, hsplit, hnone, (byteLength_reverse _).symm, ?_⟩
  have hcount := congrArg (List.count '\n') hsplit
  rw [List.count_append, List.count_eq_zero.2 hnone, Nat.add_zero] at hcount
  rw [lineAfter, lineAfter, hcount]

/-- An offset that does not count a mark in front is on no later line than what it is the offset of,
    and on the same when the mark is short for what is in front of it in its line. -/
theorem line_position_of_marked {mark front c : List Char} (hlength : byteLength mark ≤ 3) :
    ((LineIndex.of (mark ++ front ++ c)).position (byteLength front)).line ≤
        lineAfter (mark ++ front) ∧
      ((mark ≠ [] → 3 ≤ bytesInLine (mark ++ front)) →
        ((LineIndex.of (mark ++ front ++ c)).position (byteLength front)).line =
          lineAfter (mark ++ front)) := by
  obtain ⟨a, b, hsplit, hb, hbytes, hline⟩ := exists_lastLine (mark ++ front)
  have hsum := congrArg byteLength hsplit
  rw [byteLength_append, byteLength_append] at hsum
  have hshort : (mark ≠ [] → 3 ≤ bytesInLine (mark ++ front)) →
      byteLength mark ≤ byteLength b := by
    intro hfar
    by_cases hne : mark = []
    · rw [hne]
      exact Nat.zero_le _
    · exact hlength.trans (hbytes ▸ hfar hne)
  have hend : ((LineIndex.of (a ++ b ++ c)).position (byteLength mark + byteLength front)).line =
      lineAfter a := by
    refine line_position hb (by omega) ?_
    rw [byteLength_append]
    omega
  refine ⟨?_, fun hfar => ?_⟩
  · rw [hline, hsplit, ← hend]
    exact positionFrom_line_mono (Nat.le_add_left _ _) 1 0 _
  · have := hshort hfar
    rw [hline, hsplit]
    refine line_position hb (by omega) ?_
    rw [byteLength_append]
    omega

/-! ## Pieces in a text -/

/-- Every piece of a text but its runs of text is read behind a `<` at its offset. -/
theorem exists_of_mem_scanFrom {offset : Nat} {cs : List Char} {found : Located Markup}
    (h : found ∈ (scanFrom offset cs).pieces) :
    (∃ raw, found.item = .text raw) ∨
      ∃ front inner piece, cs = front ++ '<' :: inner ∧
        found.offset = offset + byteLength front ∧
        readMarkup found.offset inner = .ok piece ∧ piece.markup = found.item := by
  fun_induction scanFrom offset cs with
  | case1 => cases h
  | case2 offset inner fault hfault => cases h
  | case3 offset inner piece hpiece ih =>
    rcases List.mem_cons.1 h with rfl | h
    · exact .inr ⟨[], inner, piece, rfl, rfl, hpiece, rfl⟩
    · refine (ih h).imp_right ?_
      rintro ⟨front, inner', piece', hlater, hoffset, hread, hmarkup⟩
      obtain ⟨taken, rfl, hsize⟩ := taken_of_readMarkup hpiece
      refine ⟨'<' :: taken ++ front, inner', piece', ?_, ?_, hread, hmarkup⟩
      · rw [hlater]
        simp
      · rw [hoffset, byteLength_append, byteLength_cons, hsize]
        have hone : '<'.utf8Size = 1 := rfl
        omega
  | case4 offset first inner hfirst raw ih =>
    rcases List.mem_cons.1 h with rfl | h
    · exact .inl ⟨_, rfl⟩
    · refine (ih h).imp_right ?_
      rintro ⟨front, inner', piece, hlater, hoffset, hread, hmarkup⟩
      refine ⟨raw ++ front, inner', piece, ?_, ?_, hread, hmarkup⟩
      · rw [List.append_assoc, ← hlater, List.cons_append, List.takeWhile_append_dropWhile]
      · rw [hoffset, byteLength_append, Nat.add_assoc]

/-! ## Tags of a tree -/

mutual

/-- The tags of a child, each before those inside. -/
def Node.tags : Node → List Tag
  | .text _ => []
  | .element tag children => tag :: Node.allTags children

/-- The tags of several children in order. -/
def Node.allTags : List Node → List Tag
  | [] => []
  | node :: later => node.tags ++ Node.allTags later

end

/-- The tags of an element and of the elements in it. -/
def Element.tags (e : Element) : List Tag := e.tag :: Node.allTags e.children

theorem Node.mem_allTags {tag : Tag} {nodes : List Node} :
    tag ∈ Node.allTags nodes ↔ ∃ node ∈ nodes, tag ∈ node.tags := by
  induction nodes with
  | nil => simp [allTags]
  | cons node later ih => simp [allTags, ih]

theorem Element.tag_mem_tags (e : Element) : e.tag ∈ e.tags := List.mem_cons_self

/-- The tags of an element in another are tags of that one. -/
theorem Element.tags_subset {d e : Element} (h : e ∈ d.elements) : e.tags ⊆ d.tags := by
  obtain ⟨node, hnode, he⟩ := List.mem_filterMap.1 h
  cases node with
  | text content => cases he
  | element tag children =>
    cases he
    intro tag' htag
    exact List.mem_cons_of_mem _ (Node.mem_allTags.2 ⟨_, hnode, htag⟩)

/-- The piece is a tag that begins an element, with that body. -/
def Markup.Begins (markup : Markup) (body : List Char) : Prop :=
  markup = .opening body ∨ markup = .empty body

namespace Nesting

/-- The tag of an open element and those inside are as `P` says. -/
def OpenedEvery (P : Tag → Prop) (o : OpenElement) : Prop :=
  P o.tag ∧ ∀ tag ∈ Node.allTags o.children, P tag

/-- Every tag read so far is as `P` says. -/
structure Every (P : Tag → Prop) (n : Nesting) : Prop where
  opened : ∀ o ∈ n.opened, OpenedEvery P o
  root : ∀ e ∈ n.root, ∀ tag ∈ e.tags, P tag

variable {P : Tag → Prop} {n n' : Nesting} {o : OpenElement} {outer : List OpenElement}

theorem OpenedEvery.close (h : OpenedEvery P o) : ∀ tag ∈ o.close.tags, P tag := by
  intro tag htag
  rw [Element.tags, List.mem_cons, Node.mem_allTags] at htag
  rcases htag with rfl | ⟨node, hnode, htag⟩
  · exact h.1
  · exact h.2 tag (Node.mem_allTags.2 ⟨node, List.mem_reverse.1 hnode, htag⟩)

theorem OpenedEvery.cons (h : OpenedEvery P o) {node : Node} (hnode : ∀ tag ∈ node.tags, P tag) :
    OpenedEvery P { o with children := node :: o.children } := by
  refine ⟨h.1, fun tag htag => ?_⟩
  rcases List.mem_append.1 htag with htag | htag
  · exact hnode tag htag
  · exact h.2 tag htag

/-- The innermost open element, and what there is without it. -/
theorem Every.pop (h : n.Every P) (hopened : n.opened = o :: outer) :
    OpenedEvery P o ∧ Nesting.Every P { n with opened := outer } := by
  have hall := List.forall_mem_cons.1 (hopened ▸ h.opened)
  exact ⟨hall.1, hall.2, h.root⟩

theorem Every.push (h : n.Every P) (ho : OpenedEvery P o) :
    Nesting.Every P { n with opened := o :: n.opened } :=
  ⟨List.forall_mem_cons.2 ⟨ho, h.opened⟩, h.root⟩

theorem Every.addText (h : n.Every P) (content : String) : (n.addText content).Every P := by
  unfold Nesting.addText
  split
  · exact h
  · next o outer hopened =>
    obtain ⟨ho, houter⟩ := h.pop hopened
    exact houter.push (ho.cons fun _ hmem => by cases hmem)

theorem Every.addElement {e : Element} (h : n.Every P) (he : ∀ tag ∈ e.tags, P tag)
    (hadd : n.addElement e = .ok n') : n'.Every P := by
  unfold Nesting.addElement at hadd
  split at hadd
  · next o outer _ hopened =>
    cases hadd
    obtain ⟨ho, houter⟩ := h.pop hopened
    exact houter.push (ho.cons he)
  · cases hadd
    exact ⟨h.opened, fun e' he' => Option.some.inj he' ▸ he⟩
  · cases hadd

/-- One piece more adds the tag of an element that it begins, and no other. -/
theorem Every.step (h : n.Every P) {position : Position} {markup : Markup}
    (hnew : ∀ known body tag, markup.Begins body → tagOf known position body = .ok tag → P tag)
    (hstep : n.step position markup = .ok n') : n'.Every P := by
  cases stepped_of_step hstep with
  | opening read => exact h.push ⟨hnew _ _ _ (.inl rfl) read, fun _ hmem => by cases hmem⟩
  | empty read added =>
    refine h.addElement (fun tag' hmem => ?_) added
    obtain rfl := List.mem_singleton.1 hmem
    exact hnew _ _ _ (.inr rfl) read
  | closing opened added =>
    obtain ⟨ho, houter⟩ := h.pop opened
    exact houter.addElement ho.close added
  | outside => exact h
  | text => exact h.addText _
  | verbatim content => exact h.addText _
  | doctype content => exact ⟨h.opened, h.root⟩
  | comment => exact h
  | instruction => exact h

theorem Every.run {index : LineIndex} {pieces : List (Located Markup)} (h : n.Every P)
    (hnew : ∀ found ∈ pieces, ∀ known body tag, found.item.Begins body →
      tagOf known (index.position found.offset) body = .ok tag → P tag)
    (hrun : n.run index pieces = .ok n') : n'.Every P := by
  induction pieces generalizing n with
  | nil =>
    cases hrun
    exact h
  | cons found later ih =>
    rw [Nesting.run] at hrun
    split at hrun
    · cases hrun
    · next hstep =>
      obtain ⟨hfirst, hlater⟩ := List.forall_mem_cons.1 hnew
      exact ih (h.step hfirst hstep) hlater hrun

theorem Every.finish (h : n.Every P) {root : Element} (hfinish : n.finish = .ok root) :
    ∀ tag ∈ root.tags, P tag := by
  rcases n with ⟨entities, _ | ⟨o, outer⟩, _ | e⟩
  · cases hfinish
  · cases hfinish
    exact h.root root rfl
  · cases hfinish
  · cases hfinish

end Nesting

/-! ## Places of elements -/

/-- The tag is read in the text behind `front`, from the next character on. -/
def Tag.StandsBehind (tag : Tag) (text : String) (front : List Char) : Prop :=
  ∃ offset inner piece known body, text.toList = front ++ '<' :: inner ∧
    readMarkup offset inner = .ok piece ∧ piece.markup.Begins body ∧
    tagOf known tag.position body = .ok tag

/-- A text starts with a byte order mark. -/
def IsMarked (text : String) : Prop := text.toList.head? = some '\uFEFF'

/-- The tag is read in the text behind `front`, and its line is the one on which it is read. In a
    text with a byte order mark it may be an earlier one when fewer than three bytes of the line,
    the length of the mark, are in front of the tag. -/
structure Tag.PlacedBehind (tag : Tag) (text : String) (front : List Char) : Prop where
  stands : tag.StandsBehind text front
  known : 1 ≤ tag.position.line
  line_le : tag.position.line ≤ lineAfter front
  line_eq : (IsMarked text → 3 ≤ bytesInLine front) → tag.position.line = lineAfter front

theorem position_of_tagOf {known : EntityMap} {position : Position} {body : List Char} {tag : Tag}
    (h : tagOf known position body = .ok tag) : tag.position = position := by
  unfold tagOf at h
  dsimp only at h
  split at h
  · cases h
  · cases h
  · cases h
    rfl

/-- A text is a byte order mark, if it starts with one, and what is read. -/
theorem toList_eq_mark_append (text : String) :
    ∃ mark, text.toList = mark ++ dropByteOrderMark text.toList ∧
      (¬ IsMarked text → mark = []) ∧ byteLength mark ≤ 3 := by
  unfold dropByteOrderMark
  split
  · next cs hcs =>
    exact ⟨['\uFEFF'], hcs, fun h => absurd (by rw [IsMarked, hcs]; rfl) h, by decide⟩
  · exact ⟨[], rfl, fun _ => rfl, Nat.zero_le _⟩

/-- The tags of a text that was parsed stand in it. -/
theorem exists_place {entities : EntityMap} {text : String} {root : Element}
    (h : Element.parse entities text = .ok root) :
    ∀ tag ∈ root.tags, ∃ front, tag.PlacedBehind text front := by
  simp only [Element.parse] at h
  split at h
  · cases h
  · next n hrun =>
    split at h
    · cases h
    · refine Nesting.Every.finish (Nesting.Every.run
        (P := fun tag => ∃ front, tag.PlacedBehind text front) ⟨by simp, by simp⟩ ?_ hrun) h
      intro found hfound known body tag hbegins htag
      obtain ⟨mark, htext, hunmarked, hlength⟩ := toList_eq_mark_append text
      rcases exists_of_mem_scanFrom hfound with
        ⟨raw, hraw⟩ | ⟨front, inner, piece, hcs, hoffset, hread, hmarkup⟩
      · rw [hraw] at hbegins
        rcases hbegins with heq | heq <;> cases heq
      · rw [hcs, ← List.append_assoc] at htext
        rw [Nat.zero_add] at hoffset
        have hposition := position_of_tagOf htag
        have hline := @line_position_of_marked mark front ('<' :: inner) hlength
        rw [← htext, ← hoffset, ← hposition] at hline
        refine ⟨mark ++ front, ⟨_, inner, piece, known, body, htext, hread, ?_, ?_⟩, ?_, hline.1,
          fun hfar => hline.2 fun hne => hfar (by_contra fun hnot => hne (hunmarked hnot))⟩
        · rw [hmarkup]
          exact hbegins
        · rw [hposition]
          exact htag
        · rw [hposition]
          exact one_le_position_line _ _

end SchemaFamily.Xml
