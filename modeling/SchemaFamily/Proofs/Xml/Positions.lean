import Mathlib.Data.List.Forall2
import SchemaFamily.Proofs.Disk.Spelling
import SchemaFamily.Proofs.Xml.Places

/-
  Positions of elements. A position is exact: the line is the one that the offset is on, and from
  the start of it one byte less than the column leads to the offset (`marks_position`), so a later
  offset has a later position (`Position.Marks.before`). A text is cut into pieces one behind the
  other (`Cuts`), and the tags of the tree that it is parsed to are those of the pieces that begin
  elements, in the same order (`Nesting.tags_run`). So an element is marked where it stands and a
  later one has a later position, but that after a byte order mark, which is not counted, all stand
  three bytes further on (`positions_of_parse`).
-/

namespace SchemaFamily

/-! ## Starts of lines -/

/-- The byte offset at which a line starts, behind the lines before it and their line breaks; lines
    are counted from 1. -/
def lineStart (cs : List Char) (line : Nat) : Nat :=
  byteLength (((pieces (· == '\n') cs).take (line - 1)).flatMap (· ++ ['\n']))

/-- The number of lines of a text. -/
def lineCount (cs : List Char) : Nat := (pieces (· == '\n') cs).length

/-- The position is that of the byte at `offset`: on the line of this byte, the last one that
    starts no later, and exact in the column. -/
structure Position.Marks (p : Position) (cs : List Char) (offset : Nat) : Prop where
  line_pos : 1 ≤ p.line
  line_le : p.line ≤ lineCount cs
  column_pos : 1 ≤ p.column
  exact : lineStart cs p.line + p.column = offset + 1
  last : p.line < lineCount cs → offset < lineStart cs (p.line + 1)

/-- `p` is on an earlier line than `q`, or on the same line before it. -/
def Position.Before (p q : Position) : Prop :=
  p.line < q.line ∨ (p.line = q.line ∧ p.column < q.column)

theorem Position.Before.ne {p q : Position} (h : p.Before q) : p ≠ q := by
  rintro rfl
  exact h.elim (Nat.lt_irrefl _) fun h => Nat.lt_irrefl _ h.2

theorem lineStart_one (cs : List Char) : lineStart cs 1 = 0 := rfl

theorem lineStart_break (cs : List Char) (line : Nat) :
    lineStart ('\n' :: cs) (line + 2) = lineStart cs (line + 1) + 1 := by
  rw [lineStart, pieces_cons_sep (by decide)]
  show byteLength ('\n' :: ((pieces (· == '\n') cs).take line).flatMap _) = _
  rw [byteLength_cons, Nat.add_comm]
  rfl

theorem lineStart_cons {c : Char} (h : c ≠ '\n') (cs : List Char) (line : Nat) :
    lineStart (c :: cs) (line + 2) = lineStart cs (line + 2) + c.utf8Size := by
  obtain ⟨piece, later, hpieces⟩ := List.exists_cons_of_ne_nil (pieces_ne_nil (· == '\n') cs)
  rw [lineStart, lineStart, pieces_cons_of_not (by simpa using h), hpieces]
  show byteLength (c :: (piece ++ ['\n'] ++ (later.take line).flatMap _)) = _
  rw [byteLength_cons, Nat.add_comm]
  rfl

theorem lineCount_pos (cs : List Char) : 0 < lineCount cs :=
  List.length_pos_of_ne_nil (pieces_ne_nil _ cs)

theorem lineCount_break (cs : List Char) : lineCount ('\n' :: cs) = lineCount cs + 1 := by
  rw [lineCount, pieces_cons_sep (by decide)]
  rfl

theorem lineCount_cons {c : Char} (h : c ≠ '\n') (cs : List Char) :
    lineCount (c :: cs) = lineCount cs := by
  obtain ⟨piece, later, hpieces⟩ := List.exists_cons_of_ne_nil (pieces_ne_nil (· == '\n') cs)
  rw [lineCount, lineCount, pieces_cons_of_not (by simpa using h), hpieces]
  rfl

/-- The line of `n` line breaks of a rest that starts at `first` is looked up, `start` being that of
    the line at hand: it starts no later than the offset and the next one does. -/
structure LooksUp (offset first line start : Nat) (cs : List Char) (n : Nat) : Prop where
  lt : n < lineCount cs
  position : positionFrom offset line start (lineStarts first cs) =
    ⟨line + n, offset - (if n = 0 then start else first + lineStart cs (n + 1)) + 1⟩
  le : n ≠ 0 → first + lineStart cs (n + 1) ≤ offset
  last : n + 1 < lineCount cs → offset < first + lineStart cs (n + 2)

theorem exists_looksUp (offset first line start : Nat) (cs : List Char) :
    ∃ n, LooksUp offset first line start cs n := by
  induction cs generalizing first line start with
  | nil =>
    exact ⟨0, Nat.one_pos, rfl, fun h => absurd rfl h, fun h => absurd h (Nat.lt_irrefl 1)⟩
  | cons c cs ih =>
    by_cases hbreak : c = '\n'
    · subst hbreak
      by_cases hle : first + 1 ≤ offset
      · obtain ⟨n, hn⟩ := ih (first + 1) (line + 1) (first + 1)
        have hstart : first + lineStart ('\n' :: cs) (n + 2) =
            if n = 0 then first + 1 else first + 1 + lineStart cs (n + 1) := by
          rw [lineStart_break]
          split
          · next hzero => rw [hzero, lineStart_one]
          · omega
        refine ⟨n + 1, ?_, ?_, fun _ => ?_, fun hlt => ?_⟩
        · rw [lineCount_break]
          exact Nat.succ_lt_succ hn.lt
        · rw [lineStarts, if_pos rfl, positionFrom, if_pos hle, hn.position,
            if_neg (Nat.succ_ne_zero n), hstart]
          congr 1
          omega
        · rw [hstart]
          split
          · exact hle
          · next hne => exact hn.le hne
        · rw [lineCount_break] at hlt
          have : offset < first + 1 + lineStart cs (n + 1 + 1) :=
            hn.last (Nat.lt_of_succ_lt_succ hlt)
          rw [lineStart_break]
          omega
      · refine ⟨0, lineCount_pos _, ?_, fun h => absurd rfl h, fun _ => ?_⟩
        · rw [lineStarts, if_pos rfl, positionFrom, if_neg hle, if_pos rfl]
          rfl
        · rw [lineStart_break]
          omega
    · obtain ⟨n, hn⟩ := ih (first + c.utf8Size) line start
      have hstart (m : Nat) : first + lineStart (c :: cs) (m + 2) =
          first + c.utf8Size + lineStart cs (m + 2) := by
        rw [lineStart_cons hbreak]
        omega
      refine ⟨n, ?_, ?_, fun hne => ?_, fun hlt => ?_⟩
      · rw [lineCount_cons hbreak]
        exact hn.lt
      · rw [lineStarts, if_neg hbreak, hn.position]
        cases n with
        | zero => rfl
        | succ n => rw [hstart]
      · obtain ⟨m, rfl⟩ := Nat.exists_eq_succ_of_ne_zero hne
        rw [hstart]
        exact hn.le hne
      · rw [lineCount_cons hbreak] at hlt
        rw [hstart]
        exact hn.last hlt

/-- The position of an offset is exact. -/
theorem marks_position (cs : List Char) (offset : Nat) :
    ((LineIndex.of cs).position offset).Marks cs offset := by
  obtain ⟨n, hn⟩ := exists_looksUp offset 0 1 0 cs
  have hposition : (LineIndex.of cs).position offset =
      ⟨n + 1, offset - lineStart cs (n + 1) + 1⟩ := by
    rw [LineIndex.position, LineIndex.of, hn.position, Nat.add_comm 1 n]
    cases n with
    | zero => rfl
    | succ n => rw [if_neg (Nat.succ_ne_zero n), Nat.zero_add]
  have hle : lineStart cs (n + 1) ≤ offset := by
    cases n with
    | zero => exact Nat.zero_le _
    | succ n => simpa using hn.le (Nat.succ_ne_zero n)
  rw [hposition]
  refine ⟨Nat.succ_pos n, hn.lt, Nat.succ_pos _, ?_, fun hlt => ?_⟩
  · show lineStart cs (n + 1) + (offset - lineStart cs (n + 1) + 1) = offset + 1
    omega
  · simpa using hn.last hlt

theorem lineStart_mono (cs : List Char) {line line' : Nat} (h : line ≤ line') :
    lineStart cs line ≤ lineStart cs line' := by
  obtain ⟨more, hmore⟩ := Nat.exists_eq_add_of_le (Nat.sub_le_sub_right h 1)
  rw [lineStart, lineStart, hmore, List.take_add, List.flatMap_append, byteLength_append]
  exact Nat.le_add_right _ _

/-- A later offset has a later position. -/
theorem Position.Marks.before {cs : List Char} {p q : Position} {offset offset' : Nat}
    (hp : p.Marks cs offset) (hq : q.Marks cs offset') (h : offset < offset') : p.Before q := by
  have hpe := hp.exact
  have hqe := hq.exact
  rcases Nat.lt_trichotomy p.line q.line with hlt | heq | hgt
  · exact .inl hlt
  · rw [heq] at hpe
    exact .inr ⟨heq, by omega⟩
  · have hstart : lineStart cs (q.line + 1) ≤ lineStart cs p.line := lineStart_mono cs hgt
    have hlast := hq.last (Nat.lt_of_lt_of_le hgt hp.line_le)
    have hcolumn := hp.column_pos
    omega

namespace Xml

/-! ## Cutting a text -/

/-- A piece of markup with the text in front of it. -/
structure Cut where
  front : List Char
  markup : Markup

/-- The rest of a text, `front` being what is before it, is cut into pieces one behind the other:
    each is a run of text up to the next markup, or markup as it is read. -/
inductive Cuts : (front rest : List Char) → List Cut → Prop
  | nil (front : List Char) : Cuts front [] []
  | text {front raw later : List Char} {found : List Cut} (some : raw ≠ [])
      (plain : '<' ∉ raw) (ends : ∀ c, later.head? = .some c → c = '<')
      (more : Cuts (front ++ raw) later found) :
      Cuts front (raw ++ later) (⟨front, .text raw⟩ :: found)
  | markup {front taken : List Char} {offset : Nat} {piece : Piece} {found : List Cut}
      (read : readMarkup offset (taken ++ piece.later) = .ok piece)
      (more : Cuts (front ++ '<' :: taken) piece.later found) :
      Cuts front ('<' :: taken ++ piece.later) (⟨front, piece.markup⟩ :: found)

section

variable {front rest : List Char} {found : List Cut} {cut : Cut}

/-- A piece that is not a run of text is read in the text behind what is in front of it. -/
theorem Cuts.exists_read (h : Cuts front rest found) (hcut : cut ∈ found) :
    (∃ raw, cut.markup = .text raw) ∨
      ∃ offset inner piece, front ++ rest = cut.front ++ '<' :: inner ∧
        readMarkup offset inner = .ok piece ∧ piece.markup = cut.markup := by
  induction h with
  | nil => cases hcut
  | text some plain ends more ih =>
    rcases List.mem_cons.1 hcut with rfl | hcut
    · exact .inl ⟨_, rfl⟩
    · rw [← List.append_assoc]
      exact ih hcut
  | markup read more ih =>
    rcases List.mem_cons.1 hcut with rfl | hcut
    · exact .inr ⟨_, _, _, rfl, read, rfl⟩
    · rw [← List.append_assoc]
      exact ih hcut

/-- Pieces stand in their order, none at the place of another. -/
theorem Cuts.ordered (h : Cuts front rest found) :
    (∀ cut ∈ found, byteLength front ≤ byteLength cut.front) ∧
      found.Pairwise fun cut later => byteLength cut.front < byteLength later.front := by
  have hcons {front taken : List Char} {found : List Cut} (markup : Markup) (hne : taken ≠ [])
      (h : (∀ cut ∈ found, byteLength (front ++ taken) ≤ byteLength cut.front) ∧
        found.Pairwise fun cut later => byteLength cut.front < byteLength later.front) :
      (∀ cut ∈ (⟨front, markup⟩ :: found : List Cut), byteLength front ≤ byteLength cut.front) ∧
        (⟨front, markup⟩ :: found : List Cut).Pairwise
          fun cut later => byteLength cut.front < byteLength later.front := by
    have hlt : ∀ cut ∈ found, byteLength front < byteLength cut.front := by
      intro cut hcut
      obtain ⟨c, taken, rfl⟩ := List.exists_cons_of_ne_nil hne
      have := h.1 cut hcut
      have hpos := c.utf8Size_pos
      rw [byteLength_append, byteLength_cons] at this
      omega
    exact ⟨List.forall_mem_cons.2 ⟨Nat.le_refl _, fun cut hcut => Nat.le_of_lt (hlt cut hcut)⟩,
      List.pairwise_cons.2 ⟨hlt, h.2⟩⟩
  induction h with
  | nil => exact ⟨by simp, .nil⟩
  | text some plain ends more ih => exact hcons _ some ih
  | markup read more ih => exact hcons _ (List.cons_ne_nil _ _) ih

end

/-- What a scan without a fault finds is what the text is cut into, each piece at the offset of the
    bytes in front of it, but for `skipped` bytes that are not counted. -/
theorem exists_cuts {offset skipped : Nat} {front cs : List Char}
    (hfront : byteLength front = skipped + offset) (h : (scanFrom offset cs).fault = none) :
    ∃ found, Cuts front cs found ∧ (scanFrom offset cs).pieces =
      found.map fun cut => ⟨byteLength cut.front - skipped, cut.markup⟩ := by
  fun_induction scanFrom offset cs generalizing front with
  | case1 => exact ⟨[], .nil front, rfl⟩
  | case2 offset inner fault hfault => cases h
  | case3 offset inner piece hpiece ih =>
    obtain ⟨taken, rfl, hsize⟩ := taken_of_readMarkup hpiece
    obtain ⟨found, hcuts, hpieces⟩ := @ih (front ++ '<' :: taken) (by
      have hone : '<'.utf8Size = 1 := rfl
      rw [byteLength_append, byteLength_cons, hsize, hfront]
      omega) h
    refine ⟨⟨front, piece.markup⟩ :: found, .markup hpiece hcuts, ?_⟩
    rw [Scan.cons, hpieces, List.map_cons, hfront, Nat.add_sub_cancel_left]
  | case4 offset first inner hfirst raw =>
    rename_i ih
    have hraw : raw ++ inner.dropWhile (· != '<') = first :: inner := by
      rw [List.cons_append, List.takeWhile_append_dropWhile]
    have hplain : '<' ∉ raw := by
      rintro hmem
      rcases List.mem_cons.1 hmem with rfl | hmem
      · exact hfirst rfl
      · exact absurd (List.mem_takeWhile_imp hmem) (by decide)
    have hends : ∀ c, (inner.dropWhile (· != '<')).head? = some c → c = '<' := by
      intro c hc
      have := List.head?_dropWhile_not (· != '<') inner
      rw [hc] at this
      simpa using this
    obtain ⟨found, hcuts, hpieces⟩ := @ih (front ++ raw) (by
      rw [byteLength_append, hfront, Nat.add_assoc]) h
    refine ⟨⟨front, .text raw⟩ :: found, ?_, ?_⟩
    · rw [← hraw]
      exact .text (List.cons_ne_nil _ _) hplain hends hcuts
    · rw [Scan.cons, hpieces, List.map_cons, hfront, Nat.add_sub_cancel_left]

/-! ## Tags in their order -/

/-- The piece is a tag that begins an element. -/
def Markup.begins : Markup → Bool
  | .opening _ | .empty _ => true
  | _ => false

theorem Node.allTags_append (nodes later : List Node) :
    Node.allTags (nodes ++ later) = Node.allTags nodes ++ Node.allTags later := by
  induction nodes with
  | nil => rfl
  | cons node nodes ih => rw [List.cons_append, allTags, allTags, ih, List.append_assoc]

/-- The tags of an open element so far. -/
def OpenElement.tags (o : OpenElement) : List Tag := o.tag :: Node.allTags o.children.reverse

theorem OpenElement.tags_cons (o : OpenElement) (node : Node) :
    OpenElement.tags { o with children := node :: o.children } = o.tags ++ node.tags := by
  rw [tags, List.reverse_cons, Node.allTags_append, Node.allTags, Node.allTags, List.append_nil]
  rfl

namespace Nesting

/-- All tags read so far, in the order of the text. -/
def tags (n : Nesting) : List Tag :=
  (n.root.map Element.tags).getD [] ++ n.opened.reverse.flatMap OpenElement.tags

variable {n n' : Nesting} {o : OpenElement} {outer : List OpenElement}

theorem tags_cons (entities : EntityMap) (root : Option Element) (o : OpenElement)
    (outer : List OpenElement) :
    tags ⟨entities, o :: outer, root⟩ = tags ⟨entities, outer, root⟩ ++ o.tags := by
  rw [tags, tags, List.reverse_cons, List.flatMap_append, List.flatMap_singleton,
    List.append_assoc]

theorem tags_addText (n : Nesting) (content : String) : (n.addText content).tags = n.tags := by
  rcases n with ⟨entities, _ | ⟨o, outer⟩, root⟩
  · rfl
  · show tags ⟨entities, { o with children := .text content :: o.children } :: outer, root⟩ = _
    rw [tags_cons, tags_cons, OpenElement.tags_cons, Node.tags, List.append_nil]

theorem tags_addElement {e : Element} (h : n.addElement e = .ok n') :
    n'.tags = n.tags ++ e.tags := by
  rcases n with ⟨entities, _ | ⟨o, outer⟩, root⟩
  · cases root with
    | none =>
      cases h
      exact List.append_nil _
    | some root => cases h
  · cases h
    rw [tags_cons, tags_cons, OpenElement.tags_cons, List.append_assoc]
    rfl

/-- A tag is the one of a piece at its place. -/
def ReadAt (index : LineIndex) (tag : Tag) (found : Located Markup) : Prop :=
  ∃ known body, found.item.Begins body ∧
    tagOf known (index.position found.offset) body = .ok tag

theorem ReadAt.position_eq {index : LineIndex} {tag : Tag} {found : Located Markup}
    (h : ReadAt index tag found) : tag.position = index.position found.offset := by
  obtain ⟨_, _, _, htag⟩ := h
  exact position_of_tagOf htag

/-- One piece more adds its tag at the end, when it begins an element. -/
theorem tags_step {index : LineIndex} {found : Located Markup}
    (h : n.step (index.position found.offset) found.item = .ok n') :
    ∃ added, n'.tags = n.tags ++ added ∧
      List.Forall₂ (ReadAt index) added ([found].filter (·.item.begins)) := by
  obtain ⟨offset, markup⟩ := found
  cases stepped_of_step h with
  | opening read => exact ⟨[_], tags_cons _ _ _ _, .cons ⟨_, _, .inl rfl, read⟩ .nil⟩
  | empty read added => exact ⟨[_], tags_addElement added, .cons ⟨_, _, .inr rfl, read⟩ .nil⟩
  | closing opened added =>
    refine ⟨[], ?_, .nil⟩
    rcases n with ⟨entities, opened', root⟩
    cases opened
    rw [tags_addElement added, tags_cons, List.append_nil]
    rfl
  | outside => exact ⟨[], (List.append_nil _).symm, .nil⟩
  | text => exact ⟨[], by rw [tags_addText, List.append_nil], .nil⟩
  | verbatim content => exact ⟨[], by rw [tags_addText, List.append_nil], .nil⟩
  | doctype content => exact ⟨[], (List.append_nil _).symm, .nil⟩
  | comment => exact ⟨[], (List.append_nil _).symm, .nil⟩
  | instruction => exact ⟨[], (List.append_nil _).symm, .nil⟩

/-- The pieces that begin elements add their tags in order. -/
theorem tags_run {index : LineIndex} {pieces : List (Located Markup)}
    (h : n.run index pieces = .ok n') :
    ∃ added, n'.tags = n.tags ++ added ∧
      List.Forall₂ (ReadAt index) added (pieces.filter (·.item.begins)) := by
  induction pieces generalizing n with
  | nil =>
    cases h
    exact ⟨[], (List.append_nil _).symm, .nil⟩
  | cons found pieces ih =>
    rw [Nesting.run] at h
    split at h
    · cases h
    · next between hstep =>
      obtain ⟨added, hadded, hread⟩ := tags_step hstep
      obtain ⟨more, hmore, hlater⟩ := ih h
      refine ⟨added ++ more, by rw [hmore, hadded, List.append_assoc], ?_⟩
      rw [← List.singleton_append, List.filter_append]
      exact List.rel_append hread hlater

theorem tags_finish {root : Element} (h : n.finish = .ok root) : n.tags = root.tags := by
  rcases n with ⟨entities, _ | ⟨o, outer⟩, _ | e⟩
  · cases h
  · cases h
    exact List.append_nil _
  · cases h
  · cases h

end Nesting

/-! ## Positions of elements -/

/-- The byte order mark of a text that starts with one. -/
def byteOrderMark (text : String) : List Char :=
  if text.toList.head? = some '\uFEFF' then ['\uFEFF'] else []

theorem byteOrderMark_append (text : String) :
    byteOrderMark text ++ dropByteOrderMark text.toList = text.toList := by
  rw [byteOrderMark]
  split
  · next hmarked =>
    obtain ⟨cs, hcs⟩ := List.head?_eq_some_iff.1 hmarked
    rw [hcs]
    rfl
  · next hplain =>
    rw [List.nil_append, dropByteOrderMark]
    intro cs hcs
    exact hplain (by rw [hcs]; rfl)

/-- The tag begins the element of a piece: it is read there, behind a `<`, and its position is that
    of this `<`, the bytes of a byte order mark not counted. -/
structure Tag.BeginsAt (tag : Tag) (text : String) (cut : Cut) : Prop where
  stands : tag.StandsBehind text cut.front
  marks : tag.position.Marks text.toList
    (byteLength cut.front - byteLength (byteOrderMark text))

/-- A tag of a piece begins its element. -/
theorem beginsAt_of_readAt {text : String} {found : List Cut} {cut : Cut} {tag : Tag}
    (hcuts : Cuts (byteOrderMark text) (dropByteOrderMark text.toList) found) (hcut : cut ∈ found)
    (h : Nesting.ReadAt (LineIndex.of text.toList) tag
      ⟨byteLength cut.front - byteLength (byteOrderMark text), cut.markup⟩) :
    tag.BeginsAt text cut := by
  have hposition := h.position_eq
  obtain ⟨known, body, hbegins, htag⟩ := h
  rcases hcuts.exists_read hcut with ⟨raw, hraw⟩ | ⟨offset, inner, piece, htext, hread, hmarkup⟩
  · rcases hbegins with heq | heq <;> cases hraw.symm.trans heq
  · rw [byteOrderMark_append] at htext
    refine ⟨⟨offset, inner, piece, known, body, htext, hread, hmarkup ▸ hbegins, ?_⟩, ?_⟩
    · rw [hposition]
      exact htag
    · rw [hposition]
      exact marks_position _ _

/-- The tags of a text that was parsed are those of its pieces that begin elements, in the order of
    the text, each with the position of the `<` that it is read behind. So no two have the same
    position, and what comes later has a later one. A byte order mark in front of the text is not
    counted: after it all positions are three bytes short. -/
theorem positions_of_parse {entities : EntityMap} {text : String} {root : Element}
    (h : Element.parse entities text = .ok root) :
    ∃ found, Cuts (byteOrderMark text) (dropByteOrderMark text.toList) found ∧
      List.Forall₂ (Tag.BeginsAt · text) root.tags (found.filter (·.markup.begins)) ∧
      (root.tags.map (·.position)).Nodup ∧
      root.tags.Pairwise fun earlier later => earlier.position.Before later.position := by
  simp only [Element.parse] at h
  split at h
  · cases h
  · next n hrun =>
    split at h
    · cases h
    · next hfault =>
      obtain ⟨found, hcuts, hpieces⟩ :=
        exists_cuts (Nat.add_zero (byteLength (byteOrderMark text))).symm hfault
      obtain ⟨added, hadded, hread⟩ := Nesting.tags_run hrun
      have htags : root.tags = added := by
        rw [← Nesting.tags_finish h, hadded]
        rfl
      rw [scan, hpieces, List.filter_map, List.forall₂_map_right_iff, ← htags] at hread
      have hbegins : List.Forall₂ (Tag.BeginsAt · text) root.tags
          (found.filter (·.markup.begins)) :=
        ((List.forall₂_and_left _ _).2
          ⟨fun _ hcut => (List.mem_filter.1 hcut).1, hread.flip⟩).flip.imp
            fun _ _ htag => beginsAt_of_readAt hcuts htag.1 htag.2
      have hbefore : root.tags.Pairwise
          fun earlier later => earlier.position.Before later.position := by
        have hpositions : root.tags.map (·.position) =
            (found.filter (·.markup.begins)).map fun cut => (LineIndex.of text.toList).position
              (byteLength cut.front - byteLength (byteOrderMark text)) := by
          rw [← List.forall₂_eq_eq_eq, List.forall₂_map_left_iff, List.forall₂_map_right_iff]
          exact hread.imp fun _ _ => Nesting.ReadAt.position_eq
        rw [← List.pairwise_map (R := Position.Before), hpositions, List.pairwise_map]
        refine (hcuts.ordered.2.filter _).imp_of_mem fun {cut later} hcut _ hlt => ?_
        have hmark := hcuts.ordered.1 cut (List.mem_filter.1 hcut).1
        exact (marks_position _ _).before (marks_position _ _) (by omega)
      refine ⟨found, hcuts, hbegins, ?_, hbefore⟩
      exact List.pairwise_map.2 (hbefore.imp Position.Before.ne)

theorem exists_of_toOption {ε α β : Type} {x : Except ε α} {f : α → β} {b : β}
    (h : x.toOption.map f = some b) : ∃ a, x = .ok a ∧ f a = b := by
  cases x with
  | error e => cases h
  | ok a => exact ⟨a, rfl, Option.some.inj h⟩

/-- An element in a text with all kinds of markup, and characters of several bytes. -/
def mixedText : String :=
  "<?p?><!DOCTYPE a [<!ENTITY e '<b/>'>]><!-- <c/> -->\n<a>é<![CDATA[<d/>\n]]>€<b\nx='>'/> " ++
    "<c/></a>"

theorem positions_mixed :
    ∃ root, Element.parse [] mixedText = .ok root ∧
      root.tags.map (fun tag => (tag.name, tag.position)) =
        [("a", ⟨2, 1⟩), ("b", ⟨3, 7⟩), ("c", ⟨4, 9⟩)] ∧
      ∃ found, Cuts [] mixedText.toList found ∧
        List.Forall₂ (Tag.BeginsAt · mixedText) root.tags (found.filter (·.markup.begins)) ∧
        (root.tags.map (·.position)).Nodup ∧
        root.tags.Pairwise fun earlier later => earlier.position.Before later.position := by
  have hparse : ((Element.parse [] mixedText).toOption.map
      fun root => root.tags.map fun tag => (tag.name, tag.position)) =
      some [("a", ⟨2, 1⟩), ("b", ⟨3, 7⟩), ("c", ⟨4, 9⟩)] := by
    decide +kernel
  obtain ⟨root, hroot, htags⟩ := exists_of_toOption hparse
  exact ⟨root, hroot, htags, positions_of_parse hroot⟩

/-- With a byte order mark in front the position of the root is not that of its `<`. -/
theorem position_markedRoot :
    ∃ root, Element.parse [] "\uFEFF<a/>" = .ok root ∧ root.position = ⟨1, 1⟩ ∧
      ∀ front inner, "\uFEFF<a/>".toList = front ++ '<' :: inner →
        ¬ root.position.Marks "\uFEFF<a/>".toList (byteLength front) := by
  have hparse : ((Element.parse [] "\uFEFF<a/>").toOption.map (·.position)) = some ⟨1, 1⟩ := by
    decide +kernel
  obtain ⟨root, hroot, hposition⟩ := exists_of_toOption hparse
  refine ⟨root, hroot, hposition, fun front inner htext hmarks => ?_⟩
  rw [hposition] at hmarks
  have hexact : 0 + 1 = byteLength front + 1 := hmarks.exact
  cases front with
  | nil => exact absurd (List.cons.inj htext).1 (by decide)
  | cons c front =>
    have hpos := c.utf8Size_pos
    rw [byteLength_cons] at hexact
    omega

end Xml

end SchemaFamily
