import Mathlib.Data.List.Forall2
import SchemaFamily.Family.Cache
import SchemaFamily.Proofs.Xml.Documents

/-
  Documents that break off. `OpenedText` is a document up to a place in an element: what stands in
  front of the root, and the start tags of the elements that are open at that place, each with what
  its element holds up to the next. Exactly these elements are open when it has been read, with the
  innermost first (`resume_opened`). `FollowUp` is what cannot follow there: the end of the text, a
  text that names an entity without a value, an end tag of another name, or a start tag with a value
  that names such an entity. Reading fails there, and the fault is told with the innermost open
  element, or with the element of the start tag that it is in (`tells_innermost`).
-/

namespace SchemaFamily

namespace Xml

/-! ## Entities without a value -/

/-- The text has a reference to an entity without a value. -/
def NamesUndefined (known : String → Option String) (cs : List Char) : Prop :=
  ∃ before name after, cs = before ++ '&' :: (name ++ ';' :: after) ∧
    name.all (!endsReferenceName ·) = true ∧ name.head? ≠ some '#' ∧
      known (String.ofList name) = none

theorem NamesUndefined.append {known : String → Option String} {cs : List Char}
    (h : NamesUndefined known cs) (front back : List Char) :
    NamesUndefined known (front ++ (cs ++ back)) := by
  obtain ⟨before, name, after, rfl, hends, hnamed, hunknown⟩ := h
  exact ⟨front ++ before, name, after ++ back, by simp, hends, hnamed, hunknown⟩

section

variable {entities : EntityMap}

/-- What is not expanded from a reference on is not expanded behind any text: a reference in that
    text does not end before, is at fault itself, or leaves the rest to be expanded. -/
theorem exists_fault_append {total : Nat} {cs : List Char} (hcs : cs.head? = some '&')
    (h : ∃ fault, expandFrom entities total cs = .error fault) :
    ∀ before : List Char, ∃ fault, expandFrom entities total (before ++ cs) = .error fault
  | [] => h
  | c :: before => by
    by_cases hamp : c = '&'
    · subst hamp
      by_cases hends : ∃ later, before.dropWhile (!endsReferenceName ·) = ';' :: later
      · obtain ⟨later, hlater⟩ := hends
        have hbefore := List.takeWhile_append_dropWhile (p := (!endsReferenceName ·)) (l := before)
        rw [hlater] at hbefore
        have hname : (before.takeWhile (!endsReferenceName ·)).all (!endsReferenceName ·) = true :=
          List.all_takeWhile
        have hshorter : later.length < before.length := by
          rw [← hbefore, List.length_append, List.length_cons]
          omega
        obtain ⟨fault, hfault⟩ := exists_fault_append hcs h later
        rw [← hbefore, List.cons_append, List.append_assoc, List.cons_append,
          expandFrom_reference hname, hfault]
        split <;> exact ⟨_, rfl⟩
      · refine ⟨_, expandFrom_of_unterminated (List.dropWhile_cons_of_neg (by decide)) ?_⟩
        intro later hlater
        rw [List.append_eq, List.dropWhile_append] at hlater
        split at hlater
        · obtain ⟨first, more, rfl⟩ : ∃ first more, cs = first :: more :=
            List.exists_cons_of_ne_nil (by rintro rfl; cases hcs)
          cases hcs
          rw [List.dropWhile_cons_of_neg (by decide)] at hlater
          cases hlater
        · next hsome =>
          rcases hcut : before.dropWhile (!endsReferenceName ·) with _ | ⟨first, more⟩
          · rw [hcut] at hsome
            exact hsome rfl
          · rw [hcut] at hlater
            cases hlater
            exact hends ⟨more, hcut⟩
    · obtain ⟨fault, hfault⟩ := exists_fault_append hcs h before
      rw [List.cons_append, expandFrom_cons hamp, hfault]
      exact ⟨fault, rfl⟩
termination_by before => before.length

/-- A text that names an entity without a value is not expanded. -/
theorem expand_of_undefined {cs : List Char} (h : NamesUndefined entities.resolve? cs) :
    ∃ fault, expand entities cs = .error fault := by
  obtain ⟨before, name, after, rfl, hends, hnamed, hunknown⟩ := h
  refine exists_fault_append rfl ?_ before
  rw [expandFrom_reference hends, replacement_entity entities hnamed, hunknown]
  exact ⟨_, rfl⟩

theorem expandAttributes_of_undefined {raw : List RawAttribute}
    (h : ∃ a ∈ raw, bindsNamespace a.key = false ∧ NamesUndefined entities.resolve? a.value) :
    ∃ fault, expandAttributes entities raw = .error fault := by
  induction raw with
  | nil =>
    obtain ⟨a, ha, _⟩ := h
    cases ha
  | cons first later ih =>
    obtain ⟨a, ha, hbinds, hvalue⟩ := h
    rw [expandAttributes]
    rcases List.mem_cons.1 ha with rfl | ha
    · obtain ⟨fault, hfault⟩ := expand_of_undefined hvalue
      rw [hbinds, if_neg Bool.false_ne_true, hfault]
      exact ⟨fault, rfl⟩
    · obtain ⟨fault, hfault⟩ := ih ⟨a, ha, hbinds, hvalue⟩
      rw [hfault]
      split
      · exact ⟨fault, rfl⟩
      · split <;> exact ⟨_, rfl⟩

end

/-- One of the values in the tag names an entity without a value; one that binds a namespace does
    not count. -/
def TagText.NamesUndefined (known : String → Option String) (t : TagText) : Prop :=
  ∃ a ∈ t.attributes, bindsNamespace a.key.chars = false ∧
    SchemaFamily.Xml.NamesUndefined known a.literal.value

/-- The name of the element that the tag is of, without its qualifier. -/
def TagText.element (t : TagText) : String := t.name.unqualified

theorem TagText.tagOf_of_undefined {entities : EntityMap} {t : TagText}
    (h : t.NamesUndefined entities.resolve?) (position : Position) :
    ∃ fault, tagOf entities position t.write =
      .error ⟨.reference fault, position, some t.element⟩ := by
  obtain ⟨a, ha, hbinds, hvalue⟩ := h
  obtain ⟨fault, hfault⟩ := expandAttributes_of_undefined
    ⟨a.raw, List.mem_map_of_mem ha, hbinds, hvalue⟩
  refine ⟨fault, ?_⟩
  rw [tagOf, t.attributesOf_write, t.nameOf_write.1, hfault, MarkupName.ofList_localName]
  rfl

/-! ## Documents up to a place -/

/-- What stands behind `<!DOCTYPE`, up to the bracket that closes it by the count of brackets. -/
structure DoctypeText where
  content : List Char
  balanced : Balanced content
  named : content.dropWhile isSpace ≠ []

/-- What stands in front of the root. -/
inductive Prologue where
  | plain (outside : OutsideText)
  | typed (front : OutsideText) (doctype : DoctypeText) (middle : OutsideText)

/-- The start tag of an element that is open, with what the element holds so far. -/
structure OpenText where
  tag : TagParts
  content : ContentText := .done ⟨[], by decide⟩

/-- A document up to a place in an element, with the start tags of the elements that are open there,
    the outermost first. -/
structure OpenedText where
  prologue : Prologue := .plain (.done [] (by decide))
  outer : List OpenText := []
  innermost : OpenText

/-- What stands in front of the root, as it is written. -/
def Prologue.write : Prologue → List Char
  | .plain outside => outside.write
  | .typed front doctype middle =>
    front.write ++ '<' :: ("!DOCTYPE".toList ++ doctype.content ++ '>' :: middle.write)

/-- The entities that are known in the root. -/
def Prologue.entities (configured : EntityMap) : Prologue → EntityMap
  | .plain _ => configured
  | .typed _ doctype _ =>
    Markup.declares configured (.doctype (doctype.content.dropWhile isSpace))

/-- The start tag with what its element holds so far, as they are written. -/
def OpenText.write (t : OpenText) : List Char := '<' :: (t.tag.text.write ++ '>' :: t.content.write)

/-- There is a value for every entity that is named behind the start tag or in it. -/
structure OpenText.Resolves (known : String → Option String) (t : OpenText) : Prop where
  tag : (t.tag.tag known).isOk = true
  content : (t.content.resolve known t.tag.element).isOk = true

namespace OpenedText

variable (d : OpenedText)

/-- The document up to the place, as it is written. -/
def write : List Char := d.prologue.write ++ (d.outer.flatMap OpenText.write ++ d.innermost.write)

/-- The values of entities in the document. -/
def known (configured : EntityMap) : String → Option String :=
  (d.prologue.entities configured).resolve?

/-- There is a value for every entity that is named in the root so far. -/
def Resolves (configured : EntityMap) : Prop :=
  ∀ t ∈ d.outer ++ [d.innermost], t.Resolves (d.known configured)

end OpenedText

/-! ## What cannot follow -/

/-- What follows at a place in an element. -/
inductive FollowUp where
  | ends
  | text (raw : List Char) (plain : '<' ∉ raw) (rest : List Char)
  | closing (name : MarkupName) (tail : Blanks isSpace) (rest : List Char)
  | opening (tag : TagText) (rest : List Char)
  | single (tag : TagText) (rest : List Char)

namespace FollowUp

/-- What follows, as it is written. -/
def write : FollowUp → List Char
  | .ends => []
  | .text raw _ rest => raw ++ rest
  | .closing name tail rest => '<' :: ('/' :: (name.chars ++ tail.chars) ++ '>' :: rest)
  | .opening tag rest => '<' :: (tag.write ++ '>' :: rest)
  | .single tag rest => '<' :: (tag.write ++ '/' :: '>' :: rest)

/-- It cannot follow in the element with that start tag. -/
def Breaks (known : String → Option String) (innermost : TagParts) : FollowUp → Prop
  | .ends => True
  | .text raw _ _ => NamesUndefined known raw
  | .closing name _ _ => name.chars ≠ innermost.name.chars
  | .opening tag _ | .single tag _ => tag.NamesUndefined known

/-- The element that it is told with. -/
def element (innermost : TagParts) : FollowUp → String
  | .opening tag _ | .single tag _ => tag.element
  | _ => innermost.element

/-- The fault is what cannot follow. -/
def ToldBy (innermost : TagParts) : FollowUp → Fault → Prop
  | .ends, fault => fault = .neverClosed innermost.element
  | .closing name _ _, fault =>
    fault = .closingMismatch (String.ofList innermost.name.chars) (String.ofList name.chars)
  | _, fault => ∃ reference, fault = .reference reference

end FollowUp

/-! ## Reading what is open -/

/-- The element is open with its name and its full name as in its start tag. -/
structure OpenText.Opens (t : OpenText) (o : OpenElement) : Prop where
  name : o.tag.name = t.tag.element
  fullName : o.fullName = t.tag.name.chars

section

variable {index : LineIndex} {known : String → Option String} {n : Nesting} {rest : List Char}

/-- A start tag opens its element. -/
theorem resume_tag (index : LineIndex) {tag : TagParts} (hknown : n.entities.resolve? = known)
    (htag : (tag.tag known).isOk = true) (offset : Nat) (rest : List Char) :
    ∃ attributes position offset', n.resume index offset ('<' :: (tag.text.write ++ '>' :: rest)) =
      Nesting.resume index { n with opened :=
        ⟨⟨tag.element, attributes, position⟩, tag.name.chars, []⟩ :: n.opened } offset' rest := by
  have hname : nameOf tag.text.write = tag.name.chars := tag.text.nameOf_write.1
  have hread := tagOf_write_parts n.entities tag (index.position offset)
  rw [hknown] at hread
  rcases hread with ⟨unknown, _, htold, _⟩ | ⟨attributes, _, hread⟩
  · rw [htold] at htag
    cases htag
  · refine ⟨attributes, index.position offset, offset + 1 + (byteLength tag.text.write + 1), ?_⟩
    rw [Nesting.resume_markup (tag.text.readMarkup_opening offset rest), Nesting.step, hread, hname]
    rfl

/-- What is told to fill an element fills it with some children. -/
theorem FillsTold.resume {element : String} {cs : List Char}
    {told : Except UnknownEntity (List Node)} {o : OpenElement} {outer : List OpenElement}
    (h : FillsTold index known element cs rest told) (htold : told.isOk = true)
    (hknown : n.entities.resolve? = known)
    (hopened : n.opened = o :: outer) (hname : o.tag.name = element) (offset : Nat) :
    ∃ children offset', n.resume index offset (cs ++ rest) = Nesting.resume index
      { n with opened := { o with children := children } :: outer } offset' rest := by
  have hfills := h n o outer offset hknown hopened hname
  cases told with
  | error => cases htold
  | ok nodes =>
    obtain ⟨children, offset', _, hread⟩ := hfills
    exact ⟨children.reverse ++ o.children, offset', hread⟩

/-- A start tag with what its element holds leaves the element open. -/
theorem OpenText.resume (index : LineIndex) (t : OpenText) (hresolves : t.Resolves known)
    (hknown : n.entities.resolve? = known) (hrest : StartsMarkup rest) (offset : Nat) :
    ∃ o offset', t.Opens o ∧ n.resume index offset (t.write ++ rest) =
      Nesting.resume index { n with opened := o :: n.opened } offset' rest := by
  obtain ⟨attributes, position, offset₁, htag⟩ :=
    resume_tag index hknown hresolves.tag offset (t.content.write ++ rest)
  have hfills : FillsTold index known t.tag.element t.content.write rest
      (t.content.resolve known t.tag.element) := t.content.fillsTold t.tag.element rest hrest
  obtain ⟨children, offset₂, hread⟩ := hfills.resume (n := { n with opened :=
    ⟨⟨t.tag.element, attributes, position⟩, t.tag.name.chars, []⟩ :: n.opened })
    hresolves.content hknown rfl rfl offset₁
  refine ⟨⟨⟨t.tag.element, attributes, position⟩, t.tag.name.chars, children⟩, offset₂,
    ⟨rfl, rfl⟩, ?_⟩
  rw [OpenText.write, List.cons_append, List.append_assoc, List.cons_append, htag, hread]

theorem startsMarkup_flatMap (texts : List OpenText) (hrest : StartsMarkup rest) :
    StartsMarkup (texts.flatMap OpenText.write ++ rest) := by
  cases texts with
  | nil => exact hrest
  | cons t later => exact startsMarkup_cons _

/-- The elements of the start tags that have been read are open, the innermost first, and no
    others. -/
theorem resume_opened (index : LineIndex) {texts : List OpenText}
    (hresolves : ∀ t ∈ texts, t.Resolves known) (hknown : n.entities.resolve? = known)
    (hrest : StartsMarkup rest) (offset : Nat) :
    ∃ opened offset', List.Forall₂ OpenText.Opens texts.reverse opened ∧
      n.resume index offset (texts.flatMap OpenText.write ++ rest) =
        Nesting.resume index { n with opened := opened ++ n.opened } offset' rest := by
  induction texts generalizing n offset with
  | nil => exact ⟨[], offset, .nil, rfl⟩
  | cons t later ih =>
    obtain ⟨ht, hlater⟩ := List.forall_mem_cons.1 hresolves
    obtain ⟨o, offset₁, hopens, hread⟩ :=
      t.resume index ht hknown (startsMarkup_flatMap later hrest) offset
    obtain ⟨opened, offset₂, hall, hmore⟩ :=
      ih (n := { n with opened := o :: n.opened }) hlater hknown offset₁
    refine ⟨opened ++ [o], offset₂, ?_, ?_⟩
    · rw [List.reverse_cons]
      exact List.rel_append hall (.cons hopens .nil)
    · rw [List.flatMap_cons, List.append_assoc, hread, hmore, List.append_assoc]
      rfl

/-! ## Reading what cannot follow -/

/-- Reading fails, and the fault is told with that element. -/
def FailsIn (element : String) (told : Fault → Prop) (read : Except Malformed Element) : Prop :=
  ∃ malformed, read = .error malformed ∧ malformed.element = some element ∧ told malformed.fault

theorem followed_isOk {front back : Except UnknownEntity (List Node)}
    (h : (followed front back).isOk = true) : front.isOk = true ∧ back.isOk = true := by
  cases front with
  | error => cases h
  | ok =>
    cases back with
    | error => cases h
    | ok => exact ⟨rfl, rfl⟩

/-- Text that names an entity without a value cannot follow what an element holds; behind text it is
    one text with that. -/
theorem ContentText.failsIn_text {element : String} {raw : List Char} (plain : '<' ∉ raw)
    (hraw : NamesUndefined known raw) (hrest : StartsMarkup rest) :
    ∀ (content : ContentText) {n : Nesting} {o : OpenElement} {outer : List OpenElement}
      (offset : Nat), (content.resolve known element).isOk = true → n.entities.resolve? = known →
        n.opened = o :: outer → o.tag.name = element →
          FailsIn element (fun fault => ∃ reference, fault = .reference reference)
            (n.resume index offset (content.write ++ (raw ++ rest)))
  | .done text, n, o, outer, offset, _, hknown, hopened, hname => by
    have hundefined : NamesUndefined n.entities.resolve? (text.write ++ (raw ++ [])) :=
      hknown ▸ hraw.append text.write []
    obtain ⟨fault, hfault⟩ := expand_of_undefined hundefined
    have hne : text.write ++ (raw ++ []) ≠ [] := by
      obtain ⟨before, name, after, rfl, _⟩ := hraw
      simp
    have hplain : ∀ c ∈ text.write ++ (raw ++ []), c ≠ '<' := by
      rintro c hc rfl
      rw [List.append_nil, List.mem_append] at hc
      exact hc.elim text.plain plain
    have hopen : ¬ n.opened.isEmpty = true := by
      rw [hopened]
      exact Bool.false_ne_true
    have hinnermost : n.innermost? = some element := by
      rw [Nesting.innermost?, hopened, ← hname]
      rfl
    have hwrite : text.write ++ (raw ++ rest) = text.write ++ (raw ++ []) ++ rest := by simp
    rw [ContentText.write, hwrite, Nesting.resume_text hne hplain hrest, Nesting.step,
      if_neg hopen, hfault]
    exact ⟨_, rfl, hinnermost, fault, rfl⟩
  | .next text piece later, n, o, outer, offset, hresolve, hknown, hopened, hname => by
    obtain ⟨htext, hbehind⟩ := followed_isOk hresolve
    obtain ⟨hpiece, hlater⟩ := followed_isOk hbehind
    have hfills : FillsTold index known element text.write
        (piece.write ++ (later.write ++ (raw ++ rest))) (text.resolve known element) :=
      text.fillsTold (piece.startsMarkup _)
    have hfills' : FillsTold index known element piece.write (later.write ++ (raw ++ rest))
        (piece.resolve known) := piece.fillsTold element _
    obtain ⟨children, offset₁, hread₁⟩ := hfills.resume htext hknown hopened hname offset
    obtain ⟨children', offset₂, hread₂⟩ := hfills'.resume
      (n := { n with opened := { o with children := children } :: outer }) hpiece hknown rfl hname
      offset₁
    rw [ContentText.write, List.append_assoc, List.append_assoc, hread₁, hread₂]
    exact later.failsIn_text plain hraw hrest offset₂ hlater hknown rfl hname

/-- Text that names an entity without a value cannot follow in an open element. -/
theorem OpenText.failsIn_text (t : OpenText) (hresolves : t.Resolves known)
    (hknown : n.entities.resolve? = known) {raw : List Char} (plain : '<' ∉ raw)
    (hraw : NamesUndefined known raw) (rest : List Char) (offset : Nat) :
    FailsIn t.tag.element (fun fault => ∃ reference, fault = .reference reference)
      (n.resume index offset (t.write ++ (raw ++ rest))) := by
  obtain ⟨more, later, rfl, hmore, hlater⟩ := exists_run rest
  have hplain : '<' ∉ raw ++ more := fun hmem =>
    (List.mem_append.1 hmem).elim plain fun hmem => hmore _ hmem rfl
  have hwrite : t.write ++ (raw ++ (more ++ later)) =
      '<' :: (t.tag.text.write ++ '>' :: (t.content.write ++ (raw ++ more ++ later))) := by
    simp [OpenText.write]
  obtain ⟨attributes, position, offset', htag⟩ := resume_tag index hknown
    hresolves.tag offset (t.content.write ++ (raw ++ more ++ later))
  rw [hwrite, htag]
  exact t.content.failsIn_text hplain (hraw.append [] more) hlater offset' hresolves.content hknown
    rfl rfl

/-- What cannot follow in the innermost open element is told with it, or with the element of the
    start tag at fault. -/
theorem FollowUp.failsIn {t : OpenText} {o : OpenElement} {outer : List OpenElement}
    (hopens : t.Opens o) (hknown : n.entities.resolve? = known) (hopened : n.opened = o :: outer)
    (next : FollowUp) (hnext : ∀ raw plain rest, next ≠ .text raw plain rest)
    (hbreaks : next.Breaks known t.tag) (offset : Nat) :
    FailsIn (next.element t.tag) (next.ToldBy t.tag) (n.resume index offset next.write) := by
  cases next with
  | text raw plain rest => exact absurd rfl (hnext raw plain rest)
  | ends =>
    rw [FollowUp.write, Nesting.resume_nil, Nesting.finish, hopened]
    exact ⟨_, rfl, congrArg some hopens.name, congrArg Fault.neverClosed hopens.name⟩
  | closing name tail rest =>
    rw [FollowUp.write, Nesting.resume_markup (readMarkup_closing name tail offset rest),
      Nesting.step, hopened]
    dsimp only
    rw [if_neg (hopens.fullName ▸ hbreaks.symm)]
    exact ⟨_, rfl, congrArg some hopens.name, by rw [FollowUp.ToldBy, hopens.fullName]⟩
  | opening tag rest =>
    have hundefined : tag.NamesUndefined n.entities.resolve? := hknown ▸ hbreaks
    obtain ⟨fault, hfault⟩ := tag.tagOf_of_undefined hundefined (index.position offset)
    rw [FollowUp.write, Nesting.resume_markup (tag.readMarkup_opening offset rest), Nesting.step,
      hfault]
    exact ⟨_, rfl, rfl, fault, rfl⟩
  | single tag rest =>
    have hundefined : tag.NamesUndefined n.entities.resolve? := hknown ▸ hbreaks
    obtain ⟨fault, hfault⟩ := tag.tagOf_of_undefined hundefined (index.position offset)
    rw [FollowUp.write, Nesting.resume_markup (tag.readMarkup_empty offset rest), Nesting.step,
      hfault]
    exact ⟨_, rfl, rfl, fault, rfl⟩

/-- Nothing in front of the root is left open, and behind it the entities of the document type are
    known. -/
theorem Prologue.parse_eq (prologue : Prologue) (configured : EntityMap)
    (hrest : StartsMarkup rest) :
    ∃ index offset, Element.parse configured (String.ofList (prologue.write ++ rest)) =
      Nesting.resume index ⟨prologue.entities configured, [], none⟩ offset rest := by
  refine ⟨LineIndex.of (prologue.write ++ rest), ?_⟩
  rw [Element.parse_eq_resume, String.toList_ofList]
  cases prologue with
  | plain outside =>
    obtain ⟨outside', houtside⟩ := outside.exists_dropByteOrderMark hrest
    obtain ⟨offset, hread⟩ := outside'.resume (LineIndex.of (outside.write ++ rest))
      (n := ⟨configured, [], none⟩) rfl hrest 0
    refine ⟨offset, ?_⟩
    rw [Prologue.write, houtside, hread]
    rfl
  | typed front doctype middle =>
    have hwrite : (Prologue.typed front doctype middle).write ++ rest = front.write ++
        '<' :: ("!DOCTYPE".toList ++ doctype.content ++ '>' :: (middle.write ++ rest)) := by
      simp [Prologue.write]
    obtain ⟨index, hindex⟩ : ∃ index,
        index = LineIndex.of ((Prologue.typed front doctype middle).write ++ rest) := ⟨_, rfl⟩
    obtain ⟨front', hfront⟩ := front.exists_dropByteOrderMark (startsMarkup_cons
      ("!DOCTYPE".toList ++ doctype.content ++ '>' :: (middle.write ++ rest)))
    obtain ⟨offset₁, hread₁⟩ := front'.resume index (n := ⟨configured, [], none⟩) rfl
      (startsMarkup_cons ("!DOCTYPE".toList ++ doctype.content ++ '>' :: (middle.write ++ rest))) 0
    obtain ⟨offset₂, hread₂⟩ := resume_doctype index doctype.balanced doctype.named
      ⟨configured, [], none⟩ offset₁ (middle.write ++ rest)
    obtain ⟨offset₃, hread₃⟩ := middle.resume index
      (n := ⟨(Prologue.typed front doctype middle).entities configured, [], none⟩) rfl hrest offset₂
    exact ⟨offset₃, by rw [← hindex, hwrite, hfront, hread₁, hread₂, ← hread₃]; rfl⟩

/-- After what stands in front of the root and the start tags, exactly their elements are open. -/
theorem Prologue.parse_opened (prologue : Prologue) (configured : EntityMap)
    {texts : List OpenText}
    (hresolves : ∀ t ∈ texts, t.Resolves (prologue.entities configured).resolve?)
    (hrest : StartsMarkup rest) :
    ∃ index opened offset, List.Forall₂ OpenText.Opens texts.reverse opened ∧
      Element.parse configured
          (String.ofList (prologue.write ++ (texts.flatMap OpenText.write ++ rest))) =
        Nesting.resume index ⟨prologue.entities configured, opened, none⟩ offset rest := by
  obtain ⟨index, offset, hparse⟩ :=
    prologue.parse_eq configured (startsMarkup_flatMap texts hrest)
  obtain ⟨opened, offset', hopens, hread⟩ := resume_opened index
    (n := ⟨prologue.entities configured, [], none⟩) hresolves rfl hrest offset
  rw [List.append_nil] at hread
  exact ⟨index, opened, offset', hopens, hparse.trans hread⟩

end

/-- Reading a document fails where what follows cannot follow. -/
theorem parse_of_opened (configured : EntityMap) {d : OpenedText}
    (hresolves : d.Resolves configured) {next : FollowUp}
    (hbreaks : next.Breaks (d.known configured) d.innermost.tag) :
    FailsIn (next.element d.innermost.tag) (next.ToldBy d.innermost.tag)
      (Element.parse configured (String.ofList (d.write ++ next.write))) := by
  by_cases htext : ∃ raw plain rest, next = .text raw plain rest
  · obtain ⟨raw, plain, rest, rfl⟩ := htext
    obtain ⟨houter, hinnermost⟩ := List.forall_mem_append.1 hresolves
    have hstarts : StartsMarkup (d.innermost.write ++ (raw ++ rest)) := startsMarkup_cons _
    obtain ⟨index, opened, offset, _, hparse⟩ :=
      d.prologue.parse_opened configured houter hstarts
    have hwrite : d.write ++ (FollowUp.text raw plain rest).write = d.prologue.write ++
        (d.outer.flatMap OpenText.write ++ (d.innermost.write ++ (raw ++ rest))) := by
      simp [OpenedText.write, FollowUp.write]
    rw [hwrite, hparse]
    exact d.innermost.failsIn_text (hinnermost _ List.mem_cons_self) rfl plain hbreaks rest offset
  · have hstarts : StartsMarkup next.write := by
      cases next with
      | ends => exact startsMarkup_nil
      | text raw plain rest => exact absurd ⟨raw, plain, rest, rfl⟩ htext
      | closing => exact startsMarkup_cons _
      | opening => exact startsMarkup_cons _
      | single => exact startsMarkup_cons _
    obtain ⟨index, opened, offset, hopens, hparse⟩ :=
      d.prologue.parse_opened configured hresolves hstarts
    rw [List.reverse_append] at hopens
    obtain ⟨o, outer, ho, _, rfl⟩ := List.forall₂_cons_left_iff.1 hopens
    have hwrite : d.write ++ next.write = d.prologue.write ++
        ((d.outer ++ [d.innermost]).flatMap OpenText.write ++ next.write) := by
      simp [OpenedText.write]
    rw [hwrite, hparse]
    have hknown : (d.prologue.entities configured).resolve? = d.known configured := rfl
    exact next.failsIn ho hknown rfl (fun raw plain rest heq => htext ⟨raw, plain, rest, heq⟩)
      hbreaks offset

/-! ## Documents that break off -/

instance (known : String → Option String) (t : OpenText) : Decidable (t.Resolves known) :=
  decidable_of_iff ((t.tag.tag known).isOk = true ∧
    (t.content.resolve known t.tag.element).isOk = true)
    ⟨fun h => ⟨h.1, h.2⟩, fun h => ⟨h.tag, h.content⟩⟩

instance (d : OpenedText) (configured : EntityMap) : Decidable (d.Resolves configured) :=
  inferInstanceAs (Decidable (∀ t ∈ d.outer ++ [d.innermost], t.Resolves (d.known configured)))

end Xml

/-- Where a document breaks off, in any element and behind any others, reading it fails, and the
    fault is told with the innermost open element; if a value of a start tag names an entity without
    a value, it is told with the element of that tag. Its draft and its file fail with that element
    on the line of the fault. -/
theorem tells_innermost (configured : Xml.EntityMap) (d : Xml.OpenedText)
    (hresolves : d.Resolves configured) (next : Xml.FollowUp)
    (hbreaks : next.Breaks (d.known configured) d.innermost.tag) (source : String)
    (hsource : source = String.ofList (d.write ++ next.write)) :
    ∃ malformed, Xml.Element.parse configured source = .error malformed ∧
      malformed.element = some (next.element d.innermost.tag) ∧
      next.ToldBy d.innermost.tag malformed.fault ∧
      ∀ path, Draft.read configured path source = .error
          ⟨next.element d.innermost.tag, malformed.position.line, .xml malformed.fault⟩ ∧
        ∀ disk : Disk, disk.read path = .ok source → readDraft disk configured path =
          .error (.malformed path
            ⟨next.element d.innermost.tag, malformed.position.line, .xml malformed.fault⟩) := by
  subst hsource
  obtain ⟨malformed, hparse, helement, htold⟩ := Xml.parse_of_opened configured hresolves hbreaks
  have hread (path : Path) : Draft.read configured path (String.ofList (d.write ++ next.write)) =
      .error ⟨next.element d.innermost.tag, malformed.position.line, .xml malformed.fault⟩ := by
    rw [Draft.read, hparse]
    dsimp only
    rw [helement]
    rfl
  refine ⟨malformed, hparse, helement, htold, fun path => ⟨hread path, fun disk hdisk => ?_⟩⟩
  rw [readDraft, hdisk]
  dsimp only
  rw [hread]

namespace Xml

/-- The start of a document, with a child that is complete, a comment, a child that is open and
    references, of which two are to an entity of the document type. -/
def orgText : String :=
  "<?xml version='1.0'?>\n<!DOCTYPE a [<!ENTITY org 'x'>]>\n" ++
    "<m:a t='&org;'><b>&org;</b><!-- &nope; -->\n<m:c>&amp;"

theorem balanced_orgType : Balanced " a [<!ENTITY org 'x'>]".toList := by
  have hinner : Balanced "!ENTITY org 'x'".toList := .of_not_mem (by decide) (by decide)
  have hfront : Balanced " a [".toList := .of_not_mem (by decide) (by decide)
  have hback : Balanced [']'] := .of_not_mem (by decide) (by decide)
  exact (hfront.append hinner.enclose).append hback

theorem exists_orgText : ∃ d : OpenedText, d.write = orgText.toList ∧ d.Resolves [] ∧
    d.innermost.tag.name.chars = "m:c".toList ∧ d.known [] "nope" = none := by
  refine ⟨{
    prologue := .typed
      (.next [] (by decide) (.instruction "xml version='1.0'".toList) (by decide)
        (.done ['\n'] (by decide)))
      { content := " a [<!ENTITY org 'x'>]".toList
        balanced := balanced_orgType
        named := by decide }
      (.done ['\n'] (by decide))
    outer := [{
      tag := {
        name := ⟨"m:a".toList, by decide, by decide⟩
        attributes := [
          { key := ⟨['t'], by decide, by decide⟩
            quote := .single
            parts := [.entity "org".toList (by decide) (by decide)] }] }
      content := .next ⟨[], by decide⟩
        (.element (.around { name := ⟨['b'], by decide, by decide⟩ }
          (.done ⟨[.entity "org".toList (by decide) (by decide)], by decide⟩) .empty))
        (.next ⟨[], by decide⟩ (.aside (.comment " &nope; ".toList) (by decide))
          (.done ⟨[.plain ['\n'] (by decide)], by decide⟩)) }]
    innermost := {
      tag := { name := ⟨"m:c".toList, by decide, by decide⟩ }
      content := .done ⟨[.entity "amp".toList (by decide) (by decide)], by decide⟩ } },
    ?_, ?_, rfl, ?_⟩ <;> decide +kernel

end Xml

theorem tells_innermost_orgText :
    (∃ malformed, Xml.Element.parse [] (Xml.orgText ++ "&nope;</m:c>") = .error malformed ∧
      malformed.element = some "c" ∧ (∃ fault, malformed.fault = .reference fault) ∧
      Draft.read [] ⟨"a.xml"⟩ (Xml.orgText ++ "&nope;</m:c>") =
        .error ⟨"c", malformed.position.line, .xml malformed.fault⟩) ∧
    (∃ malformed, Xml.Element.parse [] (Xml.orgText ++ "<e v=\"&nope;\"/>") = .error malformed ∧
      malformed.element = some "e" ∧ ∃ fault, malformed.fault = .reference fault) ∧
    (∃ malformed, Xml.Element.parse [] (Xml.orgText ++ "</m:a>") = .error malformed ∧
      malformed.element = some "c" ∧ malformed.fault = .closingMismatch "m:c" "m:a") ∧
    ∃ malformed, Xml.Element.parse [] Xml.orgText = .error malformed ∧
      malformed.element = some "c" ∧ malformed.fault = .neverClosed "c" := by
  obtain ⟨d, hwrite, hresolves, hname, hunknown⟩ := Xml.exists_orgText
  have helement : d.innermost.tag.element = "c" := by
    rw [Xml.TagParts.element, Xml.MarkupName.unqualified, hname]
    decide
  have hnope : Xml.NamesUndefined (d.known []) "&nope;".toList :=
    ⟨[], "nope".toList, [], by decide, by decide, by decide, hunknown⟩
  have hother : "m:a".toList ≠ d.innermost.tag.name.chars := by
    rw [hname]
    decide
  obtain ⟨tag, htag, htagElement, htagNope⟩ : ∃ tag : Xml.TagText,
      tag.write = "e v=\"&nope;\"".toList ∧ tag.element = "e" ∧ tag.NamesUndefined (d.known []) :=
    ⟨{ name := ⟨['e'], by decide, by decide⟩
       attributes := [
        { key := ⟨['v'], by decide, by decide⟩
          literal := ⟨.double, "&nope;".toList, by decide⟩ }] },
      by decide, by decide, _, List.mem_singleton_self _, by decide, hnope⟩
  have hsource (more : String) (next : List Char) (h : next = more.toList) :
      Xml.orgText ++ more = String.ofList (d.write ++ next) := by
    rw [hwrite, h, String.ofList_append, String.ofList_toList, String.ofList_toList]
  obtain ⟨_, htext, hinText, htoldText, hdraft⟩ := tells_innermost [] d hresolves
    (.text "&nope;".toList (by decide) "</m:c>".toList) hnope (Xml.orgText ++ "&nope;</m:c>")
    (hsource _ _ (by decide))
  obtain ⟨_, hsingle, hinSingle, htoldSingle, _⟩ := tells_innermost [] d hresolves
    (.single tag []) htagNope (Xml.orgText ++ "<e v=\"&nope;\"/>")
    (hsource _ _ (by rw [Xml.FollowUp.write, htag]; decide))
  obtain ⟨_, hclosing, hinClosing, htoldClosing, _⟩ := tells_innermost [] d hresolves
    (.closing ⟨"m:a".toList, by decide, by decide⟩ .empty []) hother (Xml.orgText ++ "</m:a>")
    (hsource _ _ (by decide))
  obtain ⟨_, hend, hinEnd, htoldEnd, _⟩ := tells_innermost [] d hresolves .ends trivial
    Xml.orgText (by rw [hwrite, Xml.FollowUp.write, List.append_nil, String.ofList_toList])
  refine ⟨⟨_, htext, hinText.trans (congrArg some helement), htoldText, ?_⟩,
    ⟨_, hsingle, hinSingle.trans (congrArg some htagElement), htoldSingle⟩,
    ⟨_, hclosing, hinClosing.trans (congrArg some helement), htoldClosing.trans ?_⟩,
    _, hend, hinEnd.trans (congrArg some helement),
    htoldEnd.trans (congrArg Xml.Fault.neverClosed helement)⟩
  · rw [← helement]
    exact (hdraft _).1
  · rw [hname, String.ofList_toList, String.ofList_toList]

/-- The value of an attribute that binds a namespace is not read, whatever it names. A document type
    in which the brackets do not balance is not closed, and the fault is told without an element. An
    entity that is kept elsewhere has no value, so a document breaks off where it is named. -/
theorem innermost_untold :
    (∃ (d : Xml.OpenedText) (tag : Xml.TagText), d.Resolves [] ∧
      (∃ a ∈ tag.attributes, Xml.NamesUndefined (d.known []) a.literal.value) ∧
      d.write ++ '<' :: (tag.write ++ "/></a>".toList) =
        "<a><e xmlns:x=\"&nope;\"/></a>".toList ∧
      (Xml.Element.parse [] "<a><e xmlns:x=\"&nope;\"/></a>").isOk = true) ∧
    (Xml.Element.parse [] "<!DOCTYPE a [<!-- < -->]><a>").map (·.tag) =
      .error ⟨.markup .doctypeNotClosed, ⟨1, 1⟩, none⟩ ∧
    (Xml.Element.parse [] "<!DOCTYPE a [<!ENTITY e SYSTEM \"x\">]><a>&e;<b>").map (·.tag) =
      .error ⟨.reference (.unknown 1 2 "e"), ⟨1, 41⟩, some "a"⟩ := by
  refine ⟨⟨
    { innermost := { tag := { name := ⟨['a'], by decide, by decide⟩ } } },
    { name := ⟨['e'], by decide, by decide⟩
      attributes := [
        { key := ⟨"xmlns:x".toList, by decide, by decide⟩
          literal := ⟨.double, "&nope;".toList, by decide⟩ }] },
    by decide +kernel, ⟨_, List.mem_singleton_self _, ?_⟩, by decide +kernel, by decide +kernel⟩,
    by decide +kernel, by decide +kernel⟩
  exact ⟨[], "nope".toList, [], by decide, by decide, by decide, by decide +kernel⟩

end SchemaFamily
