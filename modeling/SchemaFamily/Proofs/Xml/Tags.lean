import SchemaFamily.Proofs.Xml.Escaping
import SchemaFamily.Proofs.Xml.TagTexts
import SchemaFamily.Xml.Tree

/-
  Plain tags. A tag whose names are plain is written as its name and its attributes, each value in
  double quotes and escaped, which is a text of a tag (`Tag.text`). So reading the markup gives the
  body back, and reading the body gives the tag (`tagOf_write`).
-/

namespace SchemaFamily.Xml

/-! ## Plain names -/

/-- An ASCII letter or digit, or a hyphen. -/
def isNameChar (c : Char) : Bool := c.isAlphanum || c == '-'

/-- The name is of ASCII letters, digits and hyphens, and starts with a letter. -/
structure IsPlainName (name : String) : Prop where
  chars : ∀ c ∈ name.toList, isNameChar c = true
  head : name.toList.head?.any Char.isAlpha = true

instance (name : String) : Decidable (IsPlainName name) :=
  decidable_of_iff (name.toList.all isNameChar = true ∧ name.toList.head?.any Char.isAlpha = true)
    ⟨fun h => ⟨List.all_eq_true.mp h.1, h.2⟩, fun h => ⟨List.all_eq_true.mpr h.1, h.2⟩⟩

/-- What ends a name or gives a tag another meaning is in no plain name. -/
theorem ne_of_isNameChar {c d : Char} (h : isNameChar c = true) (hd : isNameChar d = false) :
    c ≠ d := by
  rintro rfl
  rw [h] at hd
  cases hd

theorem isSpace_of_isNameChar {c : Char} (h : isNameChar c = true) : isSpace c = false := by
  simp only [isSpace, Bool.or_eq_false_iff, beq_eq_false_iff_ne]
  exact ⟨⟨⟨ne_of_isNameChar h (by decide), ne_of_isNameChar h (by decide)⟩,
    ne_of_isNameChar h (by decide)⟩, ne_of_isNameChar h (by decide)⟩

namespace IsPlainName

variable {name : String}

theorem ne_nil (h : IsPlainName name) : name.toList ≠ [] := by
  intro hnil
  have hhead := h.head
  rw [hnil] at hhead
  cases hhead

/-- A plain name has no qualifier. -/
theorem localName_eq (h : IsPlainName name) : localName name.toList = name.toList := by
  have hdrop : name.toList.dropWhile (· != ':') = [] :=
    List.dropWhile_eq_nil_iff.2 fun c hc => by
      simpa using ne_of_isNameChar (h.chars c hc) (d := ':') (by decide)
  rw [localName, hdrop]

theorem bindsNamespace_eq (h : IsPlainName name) (hne : name ≠ "xmlns") :
    bindsNamespace name.toList = false := by
  rw [bindsNamespace, Bool.or_eq_false_iff, beq_eq_false_iff_ne]
  refine ⟨fun heq => hne (String.toList_injective heq), ?_⟩
  rw [Bool.eq_false_iff]
  intro hprefix
  have hmem : ':' ∈ name.toList := (List.isPrefixOf_iff_prefix.1 hprefix).subset (by decide)
  exact ne_of_isNameChar (h.chars ':' hmem) (d := ':') (by decide) rfl

end IsPlainName

/-! ## Writing tags -/

/-- An attribute as it is written. -/
def writeAttribute (attr : String × String) : List Char :=
  ' ' :: attr.1.toList ++ '=' :: '"' :: escape attr.2.toList ++ ['"']

/-- The body of a tag as it is written. -/
def Tag.write (tag : Tag) : List Char :=
  tag.name.toList ++ tag.attributes.flatMap writeAttribute

/-- The name of the tag and the keys of its attributes are plain, no key binds a namespace, and
    they are different. -/
structure Tag.Plain (tag : Tag) : Prop where
  name : IsPlainName tag.name
  keys : ∀ attr ∈ tag.attributes, IsPlainName attr.1 ∧ attr.1 ≠ "xmlns"
  nodup : (tag.attributes.map Prod.fst).Nodup

instance (tag : Tag) : Decidable tag.Plain :=
  decidable_of_iff (IsPlainName tag.name ∧
    (∀ attr ∈ tag.attributes, IsPlainName attr.1 ∧ attr.1 ≠ "xmlns") ∧
    (tag.attributes.map Prod.fst).Nodup) ⟨fun h => ⟨h.1, h.2.1, h.2.2⟩, fun h => ⟨h.1, h.2, h.3⟩⟩

/-- An attribute as it is written is read as this. -/
def rawAttribute (attr : String × String) : RawAttribute :=
  ⟨attr.1.toList, escape attr.2.toList⟩

/-! ## Their texts -/

/-- A plain name as a name in markup. -/
def IsPlainName.markupName {name : String} (h : IsPlainName name) : MarkupName where
  chars := name.toList
  ne_nil := h.ne_nil
  all_solid := by
    refine List.all_eq_true.2 fun c hc => ?_
    rw [isMarkupNameChar, isSpace_of_isNameChar (h.chars c hc), Bool.not_false, Bool.true_and,
      List.contains_eq_mem, Bool.not_eq_true', decide_eq_false_iff_not]
    intro hmem
    have hnone : ("<>=/\"'!?".toList.all fun c => !isNameChar c) = true := by decide
    have hc' := List.all_eq_true.1 hnone c hmem
    rw [h.chars c hc] at hc'
    cases hc'

/-- The text of an attribute with a plain key. -/
def attributeText (attr : String × String) (h : IsPlainName attr.1) : AttributeText where
  key := h.markupName
  literal := ⟨.double, escape attr.2.toList, fun hmem => (ne_of_mem_escape hmem).2 rfl⟩

theorem attributeText_write (attr : String × String) (h : IsPlainName attr.1) :
    (attributeText attr h).write = writeAttribute attr := by
  simp [attributeText, AttributeText.write, Literal.write, writeAttribute, IsPlainName.markupName,
    Gap.space, Blanks.empty, Quote.char]

/-- What is said of the text of every attribute can be said of the attributes. -/
theorem map_pmap_attributeText {β : Type} {f : AttributeText → β} {g : String × String → β}
    (hfg : ∀ attr h, f (attributeText attr h) = g attr) {attrs : List (String × String)}
    (hkeys : ∀ attr ∈ attrs, IsPlainName attr.1) :
    (attrs.pmap attributeText hkeys).map f = attrs.map g := by
  induction attrs with
  | nil => rfl
  | cons attr later ih =>
    rw [List.pmap_cons, List.map_cons, List.map_cons, hfg, ih]

namespace Tag

variable {tag : Tag}

theorem Plain.keys' (h : tag.Plain) : ∀ attr ∈ tag.attributes, IsPlainName attr.1 :=
  fun attr hattr => (h.keys attr hattr).1

/-- The text of a plain tag. -/
def text (tag : Tag) (h : tag.Plain) : TagText where
  name := h.name.markupName
  attributes := tag.attributes.pmap attributeText h.keys'
  nodup := by
    have hkeys : tag.attributes.map (fun attr => attr.1.toList) =
        (tag.attributes.map Prod.fst).map String.toList := by
      rw [List.map_map]
      rfl
    rw [map_pmap_attributeText (g := fun attr => attr.1.toList) fun _ _ => rfl, hkeys]
    exact List.Pairwise.map _ (fun _ _ hne heq => hne (String.toList_injective heq)) h.nodup

theorem text_write (h : tag.Plain) : (tag.text h).write = tag.write := by
  have hattributes : (tag.attributes.pmap attributeText h.keys').flatMap AttributeText.write =
      tag.attributes.flatMap writeAttribute := by
    rw [List.flatMap_def, List.flatMap_def, map_pmap_attributeText attributeText_write]
  show tag.name.toList ++ ((tag.attributes.pmap attributeText _).flatMap _ ++ []) = _
  rw [List.append_nil, hattributes]
  rfl

end Tag

/-! ## Reading tags -/

section

variable {tag : Tag}

theorem nameOf_write (h : tag.Plain) : nameOf tag.write = tag.name.toList := by
  rw [← tag.text_write h]
  exact (tag.text h).nameOf_write.1

/-- Values that were escaped are read as they were. -/
theorem expandAttributes_raw {entities : EntityMap} (hkept : entities.KeepsPredefined)
    {attrs : List (String × String)} (h : ∀ attr ∈ attrs, IsPlainName attr.1 ∧ attr.1 ≠ "xmlns") :
    expandAttributes entities (attrs.map rawAttribute) = .ok attrs := by
  induction attrs with
  | nil => rfl
  | cons attr later ih =>
    obtain ⟨⟨hplain, hne⟩, hlater⟩ := List.forall_mem_cons.1 h
    rw [List.map_cons, rawAttribute, expandAttributes,
      if_neg (by rw [hplain.bindsNamespace_eq hne]; decide), expand_escape hkept, ih hlater,
      hplain.localName_eq, String.ofList_toList, String.ofList_toList]

/-- The body of a tag as it is written is read as the tag. -/
theorem tagOf_write {entities : EntityMap} (hkept : entities.KeepsPredefined) (h : tag.Plain)
    (position : Position) : tagOf entities position tag.write = .ok { tag with position } := by
  have hraw : attributesOf tag.write = ⟨tag.attributes.map rawAttribute, none⟩ := by
    have hread := (tag.text h).attributesOf_write
    rw [tag.text_write h] at hread
    rw [hread, Tag.text, map_pmap_attributeText (g := rawAttribute) fun _ _ => rfl]
  rw [tagOf, hraw, nameOf_write h, expandAttributes_raw hkept h.keys, h.name.localName_eq,
    String.ofList_toList]

theorem readMarkup_opening (h : tag.Plain) (offset : Nat) (later : List Char) :
    readMarkup offset (tag.write ++ '>' :: later) =
      .ok ⟨.opening tag.write, byteLength tag.write + 1, later⟩ := by
  rw [← tag.text_write h]
  exact (tag.text h).readMarkup_opening offset later

theorem readMarkup_empty (h : tag.Plain) (offset : Nat) (later : List Char) :
    readMarkup offset (tag.write ++ '/' :: '>' :: later) =
      .ok ⟨.empty tag.write, byteLength tag.write + 2, later⟩ := by
  rw [← tag.text_write h]
  exact (tag.text h).readMarkup_empty offset later

end

end SchemaFamily.Xml
