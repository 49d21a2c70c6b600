import SchemaFamily.Family.Cache

/-
  What counts of an entity map. Two maps are `Alike` when every name has the same value in both,
  however they are written down; a text is then read in the same way (`parse_eq`), and so is the
  file at a path (`readDraft_eq`).
-/

namespace SchemaFamily

namespace Xml

/-- Every name has the same value in both maps. -/
def EntityMap.Alike (a b : EntityMap) : Prop := ∀ name, a.lookup name = b.lookup name

/-- What a text with a reference that ends is expanded to. -/
theorem expandFrom_of_reference {entities : EntityMap} {total : Nat} {cs inner later : List Char}
    {amp : Char} (hamp : cs.dropWhile (· != '&') = amp :: inner)
    (hlater : inner.dropWhile (!endsReferenceName ·) = ';' :: later) :
    expandFrom entities total cs =
      match replacement entities (total - byteLength (amp :: inner))
          (inner.takeWhile (!endsReferenceName ·)) with
      | .error fault => .error fault
      | .ok value =>
        match expandFrom entities total later with
        | .error fault => .error fault
        | .ok more => .ok (String.ofList (cs.takeWhile (· != '&')) ++ value ++ more) := by
  rw [expandFrom]
  split
  · next hnil =>
    rw [hamp] at hnil
    cases hnil
  · next hamp' =>
    rw [hamp] at hamp'
    cases hamp'
    split
    · next hlater' =>
      rw [hlater] at hlater'
      cases hlater'
      rfl
    · next hnot => exact absurd hlater (hnot later)

/-- A text with a reference that does not end is not expanded. -/
theorem expandFrom_of_unterminated {entities : EntityMap} {total : Nat} {cs inner : List Char}
    {amp : Char} (hamp : cs.dropWhile (· != '&') = amp :: inner)
    (hnot : ∀ later, inner.dropWhile (!endsReferenceName ·) ≠ ';' :: later) :
    expandFrom entities total cs =
      .error (.unterminated (total - byteLength (amp :: inner)) total) := by
  rw [expandFrom]
  split
  · next hnil =>
    rw [hamp] at hnil
    cases hnil
  · next hamp' =>
    rw [hamp] at hamp'
    cases hamp'
    split
    · next later hlater => exact absurd hlater (hnot later)
    · rfl

namespace EntityMap.Alike

variable {a b : EntityMap}

theorem declare (h : a.Alike b) (name value : String) :
    (a.declare name value).Alike (b.declare name value) := by
  intro other
  simp only [EntityMap.declare, h name]
  split
  · exact h other
  · rw [List.lookup_append, List.lookup_append, h other]

theorem foldl_declare (h : a.Alike b) (declared : List (String × String)) :
    (declared.foldl (fun known (name, value) => known.declare name value) a).Alike
      (declared.foldl (fun known (name, value) => known.declare name value) b) := by
  induction declared generalizing a b with
  | nil => exact h
  | cons entry later ih => exact ih (h.declare entry.1 entry.2)

/-! ## Expanding -/

theorem replacement_eq (h : a.Alike b) (start : Nat) (name : List Char) :
    replacement a start name = replacement b start name := by
  unfold replacement EntityMap.resolve?
  split
  · rfl
  · rw [h]

theorem expandFrom_eq (h : a.Alike b) (total : Nat) (cs : List Char) :
    expandFrom a total cs = expandFrom b total cs := by
  fun_induction expandFrom a total cs with
  | case1 cs _ hnil =>
    rw [expandFrom]
    split
    · rfl
    · next hamp =>
      rw [hnil] at hamp
      cases hamp
  | case2 cs amp inner hamp start later hlater fault hfault =>
    rw [expandFrom_of_reference hamp hlater, ← h.replacement_eq, hfault]
  | case3 cs amp inner hamp start later hlater value hvalue fault hfault ih =>
    rw [expandFrom_of_reference hamp hlater, ← h.replacement_eq, hvalue, ← ih, hfault]
  | case4 cs _ amp inner hamp start later hlater value hvalue more hmore ih =>
    rw [expandFrom_of_reference hamp hlater, ← h.replacement_eq, hvalue, ← ih, hmore]
  | case5 cs amp inner hamp start hnot => rw [expandFrom_of_unterminated hamp hnot]

theorem expand_eq (h : a.Alike b) (cs : List Char) : expand a cs = expand b cs :=
  h.expandFrom_eq _ cs

theorem expandAttributes_eq (h : a.Alike b) (raw : List RawAttribute) :
    expandAttributes a raw = expandAttributes b raw := by
  induction raw with
  | nil => rfl
  | cons attr later ih =>
    rw [expandAttributes, expandAttributes, ih, h.expand_eq]

theorem tagOf_eq (h : a.Alike b) (position : Position) (body : List Char) :
    tagOf a position body = tagOf b position body := by
  rw [tagOf, tagOf, h.expandAttributes_eq]

end EntityMap.Alike

/-! ## Reading texts -/

/-- What has been read is the same, but for how the entities are written down. -/
structure Nesting.Alike (n n' : Nesting) : Prop where
  entities : n.entities.Alike n'.entities
  opened : n.opened = n'.opened
  root : n.root = n'.root

/-- Both readings fail in the same way, or both go on and what has been read is alike. -/
def AlikeResults : Except Malformed Nesting → Except Malformed Nesting → Prop
  | .ok n, .ok n' => n.Alike n'
  | .error malformed, .error malformed' => malformed = malformed'
  | _, _ => False

namespace Nesting.Alike

variable {n n' : Nesting}

theorem addText (h : n.Alike n') (content : String) :
    (n.addText content).Alike (n'.addText content) := by
  rcases n with ⟨entities, opened, root⟩
  rcases n' with ⟨entities', opened', root'⟩
  obtain ⟨he, rfl, rfl⟩ := h
  cases opened <;> exact ⟨he, rfl, rfl⟩

theorem addElement (h : n.Alike n') (e : Element) :
    AlikeResults (n.addElement e) (n'.addElement e) := by
  rcases n with ⟨entities, opened, root⟩
  rcases n' with ⟨entities', opened', root'⟩
  obtain ⟨he, rfl, rfl⟩ := h
  cases opened with
  | cons o outer => exact ⟨he, rfl, rfl⟩
  | nil =>
    cases root with
    | none => exact ⟨he, rfl, rfl⟩
    | some root => exact rfl

theorem step (h : n.Alike n') (position : Position) (markup : Markup) :
    AlikeResults (n.step position markup) (n'.step position markup) := by
  cases markup with
  | opening body =>
    simp only [Nesting.step, h.entities.tagOf_eq]
    split
    · exact rfl
    · exact ⟨h.entities, by rw [h.opened], h.root⟩
  | empty body =>
    simp only [Nesting.step, h.entities.tagOf_eq]
    split
    · exact rfl
    · exact h.addElement _
  | closing name =>
    rcases n with ⟨entities, opened, root⟩
    rcases n' with ⟨entities', opened', root'⟩
    obtain ⟨he, rfl, rfl⟩ := h
    cases opened with
    | nil => exact rfl
    | cons o outer =>
      simp only [Nesting.step]
      split
      · have houter : Nesting.Alike ⟨entities, outer, root⟩ ⟨entities', outer, root⟩ :=
          ⟨he, rfl, rfl⟩
        exact houter.addElement _
      · exact rfl
  | text raw =>
    simp only [Nesting.step, h.opened, h.entities.expand_eq, Nesting.innermost?]
    split
    · exact h
    · split
      · exact rfl
      · exact h.addText _
  | verbatim content => exact h.addText _
  | doctype content => exact ⟨h.entities.foldl_declare _, h.opened, h.root⟩
  | comment => exact h
  | instruction => exact h

theorem run (h : n.Alike n') (index : LineIndex) (pieces : List (Located Markup)) :
    AlikeResults (Nesting.run index n pieces) (Nesting.run index n' pieces) := by
  induction pieces generalizing n n' with
  | nil => exact h
  | cons piece later ih =>
    have hstep := h.step (index.position piece.offset) piece.item
    rw [Nesting.run, Nesting.run]
    rcases hn : n.step (index.position piece.offset) piece.item with malformed | m <;>
      rcases hn' : n'.step (index.position piece.offset) piece.item with malformed' | m' <;>
      rw [hn, hn'] at hstep
    · exact hstep
    · cases hstep
    · cases hstep
    · exact ih hstep

theorem finish_eq (h : n.Alike n') : n.finish = n'.finish := by
  rw [Nesting.finish, Nesting.finish, h.opened, h.root]

end Nesting.Alike

/-- Texts are read in the same way with maps that are alike. -/
theorem EntityMap.Alike.parse_eq {a b : EntityMap} (h : a.Alike b) (source : String) :
    Element.parse a source = Element.parse b source := by
  have hstart : Nesting.Alike ⟨a, [], none⟩ ⟨b, [], none⟩ := ⟨h, rfl, rfl⟩
  have hrun := hstart.run (LineIndex.of source.toList)
    (scan (dropByteOrderMark source.toList)).pieces
  unfold Element.parse
  dsimp only
  rcases hn : Nesting.run (LineIndex.of source.toList) ⟨a, [], none⟩
      (scan (dropByteOrderMark source.toList)).pieces with malformed | n <;>
    rcases hn' : Nesting.run (LineIndex.of source.toList) ⟨b, [], none⟩
      (scan (dropByteOrderMark source.toList)).pieces with malformed' | n' <;>
    rw [hn, hn'] at hrun
  · exact congrArg Except.error hrun
  · cases hrun
  · cases hrun
  · dsimp only
    rw [Nesting.innermost?, Nesting.innermost?, hrun.opened, hrun.finish_eq]

end Xml

/-- Files are read in the same way with maps that are alike. -/
theorem readDraft_eq {a b : Xml.EntityMap} (h : a.Alike b) (disk : Disk) (p : Path) :
    readDraft disk a p = readDraft disk b p := by
  simp only [readDraft, Draft.read, h.parse_eq]

end SchemaFamily
