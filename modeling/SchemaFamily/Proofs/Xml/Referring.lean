import SchemaFamily.Proofs.Xml.Escaping
import SchemaFamily.Proofs.Xml.TagTexts
import SchemaFamily.Xml.Tree

/-
  Texts and values with references. Their parts are runs of characters without references, and
  references to characters and to entities; what a part stands for is told by the values that are
  known of entities. Expanding a text gives what its parts stand for, one by one, or fails at the
  first entity without a value (`expand_writes`), and so do the values of a tag's attributes, of
  which those that bind a namespace are left out (`tagOf_write_parts`).
-/

namespace SchemaFamily.Xml

/-! ## Readings that follow what is told -/

section

variable {α β ε ε' : Type} {tells : ε → ε' → Prop}

/-- What is read is what is told, or both fail and the one fault tells of the other. -/
def Follows (tells : ε → ε' → Prop) : Except ε α → Except ε' α → Prop
  | .ok a, .ok b => b = a
  | .error e, .error e' => tells e e'
  | _, _ => False

theorem Follows.cases {told : Except ε α} {read : Except ε' α} (h : Follows tells told read) :
    (∃ e e', told = .error e ∧ read = .error e' ∧ tells e e') ∨
      ∃ a, told = .ok a ∧ read = .ok a := by
  cases told <;> cases read
  · exact .inl ⟨_, _, rfl, rfl, h⟩
  · cases h
  · cases h
  · cases h
    exact .inr ⟨_, rfl, rfl⟩

theorem Follows.map {told : Except ε α} {read : Except ε' α} (h : Follows tells told read)
    (f : α → β) : Follows tells (told.map f) (read.map f) := by
  cases told <;> cases read <;> first | exact h | exact congrArg f h

end

/-! ## Parts of texts -/

/-- A part of a text or of a value: characters that start no reference, a reference to a character,
    or a reference to an entity. -/
inductive TextPart where
  | plain (run : List Char) (apart : '&' ∉ run)
  | character (digits : List Char) (c : Char) (ends : digits.all (!endsReferenceName ·) = true)
      (read : characterOfReference digits = .ok c)
  | entity (name : List Char) (ends : name.all (!endsReferenceName ·) = true)
      (named : name.head? ≠ some '#')

namespace TextPart

/-- A part as it is written. -/
def write : TextPart → List Char
  | .plain run _ => run
  | .character digits _ _ _ => '&' :: '#' :: (digits ++ [';'])
  | .entity name _ _ => '&' :: (name ++ [';'])

/-- Parts as they are written. -/
def writes (parts : List TextPart) : List Char := parts.flatMap write

/-- What a part stands for, or the entity without a value that it names. -/
def value (known : String → Option String) : TextPart → Except String String
  | .plain run _ => .ok (String.ofList run)
  | .character _ c _ _ => .ok (String.singleton c)
  | .entity name _ _ =>
    match known (String.ofList name) with
    | some value => .ok value
    | none => .error (String.ofList name)

/-- What parts stand for, or the first entity without a value that they name. -/
def values (known : String → Option String) : List TextPart → Except String String
  | [] => .ok ""
  | part :: later =>
    match part.value known with
    | .error name => .error name
    | .ok value => (values known later).map (value ++ ·)

end TextPart

/-- The fault is that the entity of that name has no value. -/
def NamesUnknown (name : String) (fault : ReferenceFault) : Prop :=
  ∃ start stop, fault = .unknown start stop name

section

variable (entities : EntityMap)

theorem expandFrom_run {run : List Char} (h : '&' ∉ run) (total : Nat) (cs : List Char) :
    expandFrom entities total (run ++ cs) =
      (expandFrom entities total cs).map (String.ofList run ++ ·) := by
  induction run with
  | nil =>
    rw [List.nil_append]
    cases expandFrom entities total cs with
    | error fault => rfl
    | ok s =>
      show Except.ok s = Except.ok ("" ++ s)
      rw [String.empty_append]
  | cons c run ih =>
    rw [List.mem_cons, not_or] at h
    rw [List.cons_append, expandFrom_cons (Ne.symm h.1), ih h.2]
    cases expandFrom entities total cs with
    | error fault => rfl
    | ok s =>
      show Except.ok (String.ofList [c] ++ (String.ofList run ++ s)) = _
      rw [← String.append_assoc, ← String.ofList_append]
      rfl

theorem replacement_character {digits : List Char} {c : Char}
    (h : characterOfReference digits = .ok c) (start : Nat) :
    replacement entities start ('#' :: digits) = .ok (String.singleton c) := by
  rw [replacement, h]

theorem replacement_entity {name : List Char} (h : name.head? ≠ some '#') (start : Nat) :
    replacement entities start name =
      match entities.resolve? (String.ofList name) with
      | some value => .ok value
      | none =>
        .error (.unknown (start + 1) (start + 1 + byteLength name) (String.ofList name)) := by
  unfold replacement
  split
  · exact absurd rfl h
  · rfl

/-- A part that is written in front of a text is replaced by what it stands for. -/
theorem expandFrom_write (part : TextPart) (total : Nat) (cs : List Char) :
    match part.value entities.resolve? with
    | .error name => ∃ fault, NamesUnknown name fault ∧
        expandFrom entities total (part.write ++ cs) = .error fault
    | .ok value => expandFrom entities total (part.write ++ cs) =
        (expandFrom entities total cs).map (value ++ ·) := by
  cases part with
  | plain run apart => exact expandFrom_run entities apart total cs
  | character digits c ends read =>
    have hends : ('#' :: digits).all (!endsReferenceName ·) = true := ends
    show expandFrom entities total ('&' :: ('#' :: digits ++ [';'] ++ cs)) = _
    rw [List.append_assoc, List.singleton_append, expandFrom_reference hends,
      replacement_character entities read]
  | entity name ends named =>
    have hread : expandFrom entities total ('&' :: (name ++ ';' :: cs)) = _ :=
      expandFrom_reference ends total cs
    rw [replacement_entity entities named] at hread
    have hwrite : (TextPart.entity name ends named).write ++ cs = '&' :: (name ++ ';' :: cs) := by
      simp [TextPart.write]
    rw [hwrite, hread, TextPart.value]
    cases entities.resolve? (String.ofList name) with
    | none => exact ⟨_, ⟨_, _, rfl⟩, rfl⟩
    | some value => rfl

/-- A text is expanded to what its parts stand for. -/
theorem expandFrom_writes (parts : List TextPart) (total : Nat) :
    Follows NamesUnknown (TextPart.values entities.resolve? parts)
      (expandFrom entities total (TextPart.writes parts)) := by
  induction parts with
  | nil =>
    rw [TextPart.writes, List.flatMap_nil, expandFrom_of_plain rfl]
    exact rfl
  | cons part later ih =>
    have hpart := expandFrom_write entities part total (TextPart.writes later)
    rw [TextPart.values, TextPart.writes, List.flatMap_cons]
    cases hvalue : part.value entities.resolve? with
    | error name =>
      rw [hvalue] at hpart
      obtain ⟨fault, hfault, hread⟩ := hpart
      rw [← TextPart.writes, hread]
      exact hfault
    | ok value =>
      rw [hvalue] at hpart
      rw [← TextPart.writes, hpart]
      exact ih.map _

theorem expand_writes (parts : List TextPart) :
    Follows NamesUnknown (TextPart.values entities.resolve? parts)
      (expand entities (TextPart.writes parts)) :=
  expandFrom_writes entities parts _

end

/-! ## Tags -/

/-- An attribute as it may be written, its value in parts. -/
structure AttributeParts where
  gap : Gap isSpace := .space isSpace_space
  key : MarkupName
  before : Blanks isSpace := .empty
  after : Blanks isSpace := .empty
  quote : Quote := .double
  parts : List TextPart
  closed : quote.char ∉ TextPart.writes parts := by decide

/-- A tag as it may be written, its values in parts. -/
structure TagParts where
  name : MarkupName
  attributes : List AttributeParts := []
  tail : Blanks isSpace := .empty
  nodup : (attributes.map (·.key.chars)).Nodup := by decide

/-- The text of the attribute. -/
def AttributeParts.text (a : AttributeParts) : AttributeText where
  gap := a.gap
  key := a.key
  before := a.before
  after := a.after
  literal := ⟨a.quote, TextPart.writes a.parts, a.closed⟩

/-- What the attributes say, or the first entity without a value that they name. An attribute that
    binds a namespace is left out, whatever its value names. -/
def AttributeParts.values (known : String → Option String) :
    List AttributeParts → Except String (List (String × String))
  | [] => .ok []
  | a :: later =>
    if bindsNamespace a.key.chars then values known later
    else
      match TextPart.values known a.parts with
      | .error name => .error name
      | .ok value =>
        (values known later).map ((a.key.unqualified, value) :: ·)

/-- An entity without a value, with the element in which it is named. -/
structure UnknownEntity where
  element : String
  entity : String
deriving DecidableEq, Repr

/-- The fault is that the entity has no value, and it is told with the element. -/
def UnknownEntity.ToldBy (unknown : UnknownEntity) (malformed : Malformed) : Prop :=
  malformed.element = some unknown.element ∧
    ∃ fault, NamesUnknown unknown.entity fault ∧ malformed.fault = .reference fault

namespace TagParts

/-- The text of the tag. -/
def text (t : TagParts) : TagText where
  name := t.name
  attributes := t.attributes.map AttributeParts.text
  tail := t.tail
  nodup := by
    rw [List.map_map]
    exact t.nodup

/-- The name of the element, without its qualifier. -/
def element (t : TagParts) : String := t.name.unqualified

/-- What the tag says, without its place, or the first entity without a value that it names. -/
def tag (known : String → Option String) (t : TagParts) : Except UnknownEntity Tag :=
  match AttributeParts.values known t.attributes with
  | .error entity => .error ⟨t.element, entity⟩
  | .ok attributes => .ok ⟨t.element, attributes, .unknown⟩

end TagParts

section

variable (entities : EntityMap)

theorem expandAttributes_parts (attributes : List AttributeParts) :
    Follows NamesUnknown (AttributeParts.values entities.resolve? attributes)
      (expandAttributes entities (attributes.map fun a => a.text.raw)) := by
  induction attributes with
  | nil => exact rfl
  | cons a later ih =>
    have hvalue := expand_writes entities a.parts
    rw [List.map_cons, AttributeParts.values, AttributeParts.text, AttributeText.raw,
      expandAttributes]
    split
    · exact ih
    · rcases hvalue.cases with ⟨name, fault, htold, hread, hfault⟩ | ⟨value, htold, hread⟩
      · rw [htold, hread]
        exact hfault
      · have hlater := ih.map ((a.key.unqualified, value) :: ·)
        rw [htold, hread, MarkupName.ofList_localName]
        dsimp only
        cases hmore : expandAttributes entities (later.map fun a => a.text.raw) <;>
          rw [hmore] at hlater <;> exact hlater

/-- The text of a tag is read as what the tag says, in its place. -/
theorem tagOf_write_parts (t : TagParts) (position : Position) :
    (∃ unknown malformed, t.tag entities.resolve? = .error unknown ∧
      tagOf entities position t.text.write = .error malformed ∧ unknown.ToldBy malformed) ∨
    ∃ attributes, t.tag entities.resolve? = .ok ⟨t.element, attributes, .unknown⟩ ∧
      tagOf entities position t.text.write = .ok ⟨t.element, attributes, position⟩ := by
  have hvalues := expandAttributes_parts entities t.attributes
  have hraw : attributesOf t.text.write = ⟨t.attributes.map fun a => a.text.raw, none⟩ := by
    rw [t.text.attributesOf_write, TagParts.text, List.map_map]
    rfl
  rw [tagOf, hraw, t.text.nameOf_write.1, MarkupName.ofList_localName, TagParts.tag]
  rcases hvalues.cases with ⟨name, fault, htold, hread, hfault⟩ | ⟨attributes, htold, hread⟩
  · rw [htold, hread]
    exact .inl ⟨_, _, rfl, rfl, rfl, fault, hfault, rfl⟩
  · rw [htold, hread]
    exact .inr ⟨attributes, rfl, rfl⟩

end

end SchemaFamily.Xml
