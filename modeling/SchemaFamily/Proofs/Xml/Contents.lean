import SchemaFamily.Proofs.Xml.Referring
import SchemaFamily.Proofs.Xml.Writing

/-
  Elements with references. `ElementText` is an element as it may be written, with references in
  text and in values at any depth, comments, instructions and character data; two texts never stand
  side by side. What stands for it is told by what is known of entities (`ElementText.resolve`), or
  else the first reference to an entity without a value and the element that it is in. Reading it
  adds that element, but for its places, or fails as is told (`ElementText.addsTold`).
-/

namespace SchemaFamily.Xml

/-! ## Texts of elements -/

/-- Text between markup. -/
structure RunText where
  parts : List TextPart
  plain : '<' ∉ TextPart.writes parts := by decide

mutual

/-- An element as it may be written. -/
inductive ElementText where
  | single (tag : TagParts)
  | around (tag : TagParts) (content : ContentText) (tail : Blanks isSpace)

/-- Markup in an element: a comment or an instruction, character data, or an element. -/
inductive PieceText where
  | aside (aside : Aside) (whole : aside.Whole)
  | verbatim (content : List Char) (closed : ¬ "]]>".toList <:+: content)
  | element (element : ElementText)

/-- What an element holds: text, and then markup with text behind it, and so on. -/
inductive ContentText where
  | done (text : RunText)
  | next (text : RunText) (piece : PieceText) (later : ContentText)

end

/-- The text as it is written. -/
def RunText.write (text : RunText) : List Char := TextPart.writes text.parts

mutual

/-- The element as it is written. -/
def ElementText.write : ElementText → List Char
  | .single tag => '<' :: (tag.text.write ++ ['/', '>'])
  | .around tag content tail =>
    '<' :: (tag.text.write ++ ['>']) ++ content.write ++
      '<' :: ('/' :: (tag.name.chars ++ tail.chars) ++ ['>'])

/-- The markup as it is written. -/
def PieceText.write : PieceText → List Char
  | .aside aside _ => aside.write
  | .verbatim content _ => '<' :: ("![CDATA[".toList ++ content ++ [']', ']'] ++ ['>'])
  | .element element => element.write

/-- What an element holds, as it is written. -/
def ContentText.write : ContentText → List Char
  | .done text => text.write
  | .next text piece later => text.write ++ (piece.write ++ later.write)

end

/-! ## What stands for them -/

/-- Children, and then others. -/
def followed (front back : Except UnknownEntity (List Node)) : Except UnknownEntity (List Node) :=
  match front with
  | .error unknown => .error unknown
  | .ok nodes => back.map (nodes ++ ·)

/-- The child that text stands for in an element of that name, if there is text. -/
def RunText.resolve (known : String → Option String) (element : String) (text : RunText) :
    Except UnknownEntity (List Node) :=
  match TextPart.values known text.parts with
  | .error entity => .error ⟨element, entity⟩
  | .ok content => .ok (if text.write = [] then [] else [.text content])

mutual

/-- The element that a text stands for, without places, or the first entity without a value that is
    named in it. -/
def ElementText.resolve (known : String → Option String) :
    ElementText → Except UnknownEntity Element
  | .single tag => (tag.tag known).map (⟨·, []⟩)
  | .around tag content _ =>
    match tag.tag known with
    | .error unknown => .error unknown
    | .ok read => (content.resolve known tag.element).map (⟨read, ·⟩)

/-- The children that markup stands for. -/
def PieceText.resolve (known : String → Option String) :
    PieceText → Except UnknownEntity (List Node)
  | .aside _ _ => .ok []
  | .verbatim content _ => .ok [.text (String.ofList content)]
  | .element element => (element.resolve known).map ([·.toNode])

/-- The children that stand in an element of that name. -/
def ContentText.resolve (known : String → Option String) (element : String) :
    ContentText → Except UnknownEntity (List Node)
  | .done text => text.resolve known element
  | .next text piece later =>
    followed (text.resolve known element)
      (followed (piece.resolve known) (later.resolve known element))

end

/-! ## Reading texts of elements -/

/-- The reading goes on with what is told, or fails as is told. -/
def GoesOn {α : Type} (told : Except UnknownEntity α) (goes : α → Prop)
    (read : Except Malformed Element) : Prop :=
  match told with
  | .ok a => goes a
  | .error unknown => ∃ malformed, read = .error malformed ∧ unknown.ToldBy malformed

/-- Reading the text adds the element that is told of, but for its places. -/
def AddsTold (index : LineIndex) (known : String → Option String) (cs : List Char)
    (told : Except UnknownEntity Element) : Prop :=
  ∀ (n : Nesting) (offset : Nat) (rest : List Char), n.entities.resolve? = known →
    GoesOn told
      (fun e => ∃ (e' : Element) (offset' : Nat), e'.unplaced = e ∧
        n.resume index offset (cs ++ rest) = (n.addElement e').bind (·.resume index offset' rest))
      (n.resume index offset (cs ++ rest))

/-- Reading the text in front of `rest`, in an element of that name, fills it with the children that
    are told of, but for their places. -/
def FillsTold (index : LineIndex) (known : String → Option String) (element : String)
    (cs rest : List Char) (told : Except UnknownEntity (List Node)) : Prop :=
  ∀ (n : Nesting) (o : OpenElement) (outer : List OpenElement) (offset : Nat),
    n.entities.resolve? = known → n.opened = o :: outer → o.tag.name = element →
      GoesOn told
        (fun nodes => ∃ (children : List Node) (offset' : Nat), Node.allUnplaced children = nodes ∧
          n.resume index offset (cs ++ rest) =
            Nesting.resume index
              { n with opened := { o with children := children.reverse ++ o.children } :: outer }
              offset' rest)
        (n.resume index offset (cs ++ rest))

section

variable {index : LineIndex} {known : String → Option String} {element : String}

theorem ElementText.startsMarkup (e : ElementText) (rest : List Char) :
    StartsMarkup (e.write ++ rest) := by
  cases e <;> exact startsMarkup_cons _

theorem PieceText.startsMarkup (piece : PieceText) (rest : List Char) :
    StartsMarkup (piece.write ++ rest) := by
  cases piece with
  | aside => exact startsMarkup_cons _
  | verbatim => exact startsMarkup_cons _
  | element e => exact e.startsMarkup rest

theorem allUnplaced_append (front back : List Node) :
    Node.allUnplaced (front ++ back) = Node.allUnplaced front ++ Node.allUnplaced back := by
  induction front with
  | nil => rfl
  | cons node later ih =>
    rw [List.cons_append, Node.allUnplaced_cons, Node.allUnplaced_cons, ih, List.cons_append]

/-- Texts fill an element one after the other. -/
theorem FillsTold.append {cs ds rest : List Char} {front back : Except UnknownEntity (List Node)}
    (hcs : FillsTold index known element cs (ds ++ rest) front)
    (hds : FillsTold index known element ds rest back) :
    FillsTold index known element (cs ++ ds) rest (followed front back) := by
  intro n o outer offset hknown hopened hname
  have hfront := hcs n o outer offset hknown hopened hname
  rw [List.append_assoc]
  cases front with
  | error unknown => exact hfront
  | ok nodes =>
    obtain ⟨children, offset', rfl, hread⟩ := hfront
    have hback := hds
      { n with opened := { o with children := children.reverse ++ o.children } :: outer } _ outer
      offset' hknown rfl hname
    rw [hread]
    cases back with
    | error unknown => exact hback
    | ok nodes' =>
      obtain ⟨children', offset'', rfl, hread'⟩ := hback
      refine ⟨children ++ children', offset'', allUnplaced_append children children', ?_⟩
      rw [hread', List.reverse_append, List.append_assoc]

theorem fillsTold_nil (rest : List Char) :
    FillsTold index known element [] rest (.ok []) := by
  intro n o outer offset _ hopened _
  refine ⟨[], offset, rfl, ?_⟩
  obtain ⟨entities, opened, root⟩ := n
  cases hopened
  rfl

/-- Text fills an element with what its parts stand for. -/
theorem RunText.fillsTold (text : RunText) {rest : List Char} (hrest : StartsMarkup rest) :
    FillsTold index known element text.write rest (text.resolve known element) := by
  intro n o outer offset hknown hopened hname
  have hvalues : Follows NamesUnknown (TextPart.values known text.parts)
      (expand n.entities text.write) := hknown ▸ expand_writes n.entities text.parts
  by_cases hnil : text.write = []
  · have hread : expand n.entities [] = .ok "" := expandFrom_of_plain rfl
    rw [hnil, hread] at hvalues
    rcases hvalues.cases with ⟨_, _, _, hread', _⟩ | ⟨content, htold, _⟩
    · cases hread'
    · rw [resolve, htold, hnil]
      exact fillsTold_nil rest n o outer offset hknown hopened hname
  · have hopen : ¬ n.opened.isEmpty = true := by
      rw [hopened]
      exact Bool.false_ne_true
    have hinnermost : n.innermost? = some element := by
      rw [Nesting.innermost?, hopened, ← hname]
      rfl
    rw [Nesting.resume_text hnil (fun c hc heq => text.plain (heq ▸ hc)) hrest, Nesting.step,
      if_neg hopen, resolve]
    rcases hvalues.cases with ⟨entity, fault, htold, hread, hfault⟩ | ⟨content, htold, hread⟩
    · rw [htold, hread]
      exact ⟨_, rfl, hinnermost, fault, hfault, rfl⟩
    · rw [htold, hread]
      refine ⟨[.text content], offset + byteLength text.write, (if_neg hnil).symm, ?_⟩
      dsimp only
      rw [Nesting.addText, hopened]
      rfl

theorem fillsTold_aside {aside : Aside} (whole : aside.Whole) (rest : List Char) :
    FillsTold index known element aside.write rest (.ok []) := by
  intro n o outer offset hknown hopened hname
  obtain ⟨offset', haside⟩ := resume_aside index whole n offset rest
  rw [haside]
  exact fillsTold_nil rest n o outer offset' hknown hopened hname

/-- Character data fills an element with itself. -/
theorem fillsTold_verbatim {content : List Char} (closed : ¬ "]]>".toList <:+: content)
    (rest : List Char) :
    FillsTold index known element (PieceText.verbatim content closed).write rest
      (.ok [.text (String.ofList content)]) := by
  intro n o outer offset _ hopened _
  have hread := readMarkup_verbatim closed offset rest
  have hwrite : (PieceText.verbatim content closed).write ++ rest =
      '<' :: ("![CDATA[".toList ++ content ++ [']', ']'] ++ '>' :: rest) := by
    rw [PieceText.write, List.cons_append, List.append_assoc, List.singleton_append]
  rw [hwrite, Nesting.resume_markup hread, Nesting.step, Nesting.addText, hopened]
  exact ⟨[.text (String.ofList content)], _, rfl, rfl⟩

/-- An element that is added fills the one around it. -/
theorem AddsTold.fills {cs : List Char} {told : Except UnknownEntity Element}
    (h : AddsTold index known cs told) (rest : List Char) :
    FillsTold index known element cs rest (told.map ([·.toNode])) := by
  intro n o outer offset hknown hopened _
  have hadds := h n offset rest hknown
  cases told with
  | error unknown => exact hadds
  | ok e =>
    obtain ⟨e', offset', rfl, hread⟩ := hadds
    refine ⟨[e'.toNode], offset', rfl, ?_⟩
    rw [hread, Nesting.addElement, hopened]
    rfl

/-- A tag of its own adds an element without children. -/
theorem addsTold_single (tag : TagParts) :
    AddsTold index known (ElementText.single tag).write
      ((ElementText.single tag).resolve known) := by
  intro n offset rest hknown
  have hwrite : (ElementText.single tag).write ++ rest =
      '<' :: (tag.text.write ++ '/' :: '>' :: rest) := by
    rw [ElementText.write, List.cons_append, List.append_assoc]
    rfl
  have htag := tagOf_write_parts n.entities tag (index.position offset)
  rw [hwrite, Nesting.resume_markup (tag.text.readMarkup_empty offset rest), Nesting.step,
    ElementText.resolve]
  rw [hknown] at htag
  rcases htag with ⟨unknown, malformed, htold, hread, htells⟩ | ⟨attributes, htold, hread⟩
  · rw [htold, hread]
    exact ⟨malformed, rfl, htells⟩
  · rw [htold, hread]
    exact ⟨⟨⟨tag.element, attributes, index.position offset⟩, []⟩, _, rfl, rfl⟩

/-- Tags around what fills an element add the element with it. -/
theorem addsTold_around (tag : TagParts) (content : ContentText) (tail : Blanks isSpace)
    (hcontent : ∀ rest, StartsMarkup rest → FillsTold index known tag.element content.write rest
      (content.resolve known tag.element)) :
    AddsTold index known (ElementText.around tag content tail).write
      ((ElementText.around tag content tail).resolve known) := by
  intro n offset rest hknown
  obtain ⟨closing, hclosing⟩ : ∃ closing,
      closing = '<' :: ('/' :: (tag.name.chars ++ tail.chars) ++ '>' :: rest) := ⟨_, rfl⟩
  have hwrite : (ElementText.around tag content tail).write ++ rest =
      '<' :: (tag.text.write ++ '>' :: (content.write ++ closing)) := by
    simp [ElementText.write, hclosing]
  have htag := tagOf_write_parts n.entities tag (index.position offset)
  rw [hwrite, Nesting.resume_markup (tag.text.readMarkup_opening offset _), Nesting.step,
    ElementText.resolve]
  rw [hknown] at htag
  rcases htag with ⟨unknown, malformed, htold, hread, htells⟩ | ⟨attributes, htold, hread⟩
  · rw [htold, hread]
    exact ⟨malformed, rfl, htells⟩
  rw [htold, hread]
  have hstarts : StartsMarkup closing := hclosing ▸ startsMarkup_cons _
  have hname : nameOf tag.text.write = tag.name.chars := tag.text.nameOf_write.1
  have hfills := hcontent closing hstarts
    { n with opened := ⟨⟨tag.element, attributes, index.position offset⟩, nameOf tag.text.write,
      []⟩ :: n.opened } _ n.opened (offset + 1 + (byteLength tag.text.write + 1)) hknown rfl rfl
  cases hresolve : content.resolve known tag.element with
  | error unknown =>
    rw [hresolve] at hfills
    exact hfills
  | ok nodes =>
    rw [hresolve] at hfills
    obtain ⟨children, offset₁, rfl, hinner⟩ := hfills
    obtain ⟨offset₂, hend⟩ := resume_closing index tag.name tail
      (n := { n with opened := ⟨⟨tag.element, attributes, index.position offset⟩,
        nameOf tag.text.write, children.reverse ++ []⟩ :: n.opened }) rfl hname offset₁ rest
    rw [close_filled, ← hclosing] at hend
    exact ⟨⟨⟨tag.element, attributes, index.position offset⟩, children⟩, offset₂, rfl,
      hinner.trans hend⟩

mutual

/-- Reading an element adds what it stands for. -/
theorem ElementText.addsTold : ∀ e : ElementText, AddsTold index known e.write (e.resolve known)
  | .single tag => addsTold_single tag
  | .around tag content tail =>
    addsTold_around tag content tail fun rest hrest => content.fillsTold tag.element rest hrest

/-- Reading markup in an element fills it with what the markup stands for. -/
theorem PieceText.fillsTold : ∀ (piece : PieceText) (element : String) (rest : List Char),
    FillsTold index known element piece.write rest (piece.resolve known)
  | .aside _ whole, _, rest => fillsTold_aside whole rest
  | .verbatim _ closed, _, rest => fillsTold_verbatim closed rest
  | .element e, _, rest => e.addsTold.fills rest

/-- Reading what an element holds fills it with what that stands for. -/
theorem ContentText.fillsTold : ∀ (content : ContentText) (element : String) (rest : List Char),
    StartsMarkup rest → FillsTold index known element content.write rest
      (content.resolve known element)
  | .done text, _, _, hrest => text.fillsTold hrest
  | .next text piece later, element, rest, hrest => by
    have hbehind := (piece.fillsTold element (later.write ++ rest)).append
      (later.fillsTold element rest hrest)
    rw [ContentText.write, ContentText.resolve]
    refine FillsTold.append (text.fillsTold ?_) hbehind
    rw [List.append_assoc]
    exact piece.startsMarkup _

end

end

end SchemaFamily.Xml
