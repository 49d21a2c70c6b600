import Mathlib.Data.List.Forall2
import SchemaFamily.Proofs.Disk.Respelling
import SchemaFamily.Proofs.Xml.Feeding

/-
  Texts that spell their imports differently. Such texts are the same piece of markup by piece of
  markup, but for the paths that the tags of imports name, and these only differ in how they are
  spelled (`TextRespells`); spelled differently again, they still do (`TextRespells.trans`). Another
  spelling may be longer or shorter, so what stands behind it on its line has another column. Hence
  trees are compared after `blur`: it spells the paths of imports plainly and drops the columns that
  are not kept. Texts that only differ so are read to trees that are the same after it, or are
  refused alike (`parse_of_respells`).
-/

namespace SchemaFamily

open SchemaFamily.Path

variable (kept : Position → Bool)

/-- The place with its line, and with its column where it is kept. -/
def Position.blur (p : Position) : Position := if kept p then p else ⟨p.line, 0⟩

@[simp]
theorem Position.line_blur (p : Position) : (p.blur kept).line = p.line := by
  rw [blur]
  split <;> rfl

/-- A place that is not known has no column. -/
@[simp]
theorem Position.blur_unknown : Position.unknown.blur kept = .unknown := ite_self _

theorem Position.line_of_blur {kept : Position → Bool} {p p' : Position}
    (h : p.blur kept = p'.blur kept) : p.line = p'.line := by
  rw [← p.line_blur kept, h, line_blur]

/-- Where fewer columns are kept, it does not matter what was dropped before. -/
theorem Position.blur_blur {coarse kept : Position → Bool}
    (h : ∀ p, coarse p = true → kept p = true) (p : Position) :
    (p.blur kept).blur coarse = p.blur coarse := by
  by_cases hp : kept p = true
  · rw [blur.eq_1 kept, if_pos hp]
  · rw [blur.eq_1 coarse p, if_neg fun hcoarse => hp (h p hcoarse), blur.eq_1 kept, if_neg hp, blur]
    exact ite_self _

namespace Xml

/-! ## Blurred trees -/

/-- The attribute with a path that it names spelled plainly. -/
def plainAttribute (attr : String × String) : String × String :=
  (attr.1, if attr.1 = "href" then plainHref attr.2 else attr.2)

/-- The tag at a blurred place and, if it is one of an import, with its path spelled plainly. -/
def Tag.blur (tag : Tag) : Tag where
  name := tag.name
  attributes := if tag.name = "import" then tag.attributes.map plainAttribute else tag.attributes
  position := tag.position.blur kept

mutual

/-- The child with all its tags blurred. -/
def Node.blur : Node → Node
  | .text content => .text content
  | .element tag children => .element (tag.blur kept) (Node.blurAll children)

/-- The children with all their tags blurred. -/
def Node.blurAll : List Node → List Node
  | [] => []
  | node :: later => node.blur :: Node.blurAll later

end

/-- The element with all its tags blurred. -/
def Element.blur (e : Element) : Element := ⟨e.tag.blur kept, Node.blurAll kept e.children⟩

theorem Node.blurAll_eq_map (nodes : List Node) :
    Node.blurAll kept nodes = nodes.map (blur kept) := by
  induction nodes with
  | nil => rfl
  | cons node later ih => rw [blurAll, ih, List.map_cons]

/-- The fault at a blurred place. -/
def Malformed.blur (m : Malformed) : Malformed := { m with position := m.position.blur kept }

/-- What a text is read to, blurred. -/
def blurRead : Except Malformed Element → Except Malformed Element
  | .ok root => .ok (root.blur kept)
  | .error m => .error (m.blur kept)

/-! ## Respelled texts -/

/-- The attributes are the same, or name one path in two spellings that are not blank. -/
inductive AttributeRespells : String × String → String × String → Prop
  | same (attr : String × String) : AttributeRespells attr attr
  | href {value value' : String} (spelled : (Path.mk value).Respells ⟨value'⟩)
      (ink : hasInk value = true) (ink' : hasInk value' = true) :
      AttributeRespells ("href", value) ("href", value')

/-- The attributes in the body of a tag are well-formed, and these are their values. -/
def Reads (known : EntityMap) (body : List Char) (attributes : List (String × String)) : Prop :=
  (attributesOf body).fault = none ∧
    expandAttributes known (attributesOf body).read = .ok attributes

/-- Both are bodies of an import's tag with the same attributes, but for how they spell its path. -/
structure BodyRespells (known : EntityMap) (body body' : List Char) : Prop where
  name : nameOf body = nameOf body'
  imports : String.ofList (localName (nameOf body)) = "import"
  attributes : ∃ read read', Reads known body read ∧ Reads known body' read' ∧
    List.Forall₂ AttributeRespells read read'

/-- The pieces of markup are the same, or tags of an import that spell its path differently. -/
inductive Markup.Respells (known : EntityMap) : Markup → Markup → Prop
  | same (markup : Markup) : Respells known markup markup
  | opening {body body' : List Char} (h : BodyRespells known body body') :
      Respells known (.opening body) (.opening body')
  | empty {body body' : List Char} (h : BodyRespells known body body') :
      Respells known (.empty body) (.empty body')

/-- Pieces of markup with their places respell each other one by one, at places that are the same
    but for columns that are not kept. -/
inductive PiecesRespell :
    EntityMap → List (Position × Markup) → List (Position × Markup) → Prop
  | nil (known : EntityMap) : PiecesRespell known [] []
  | cons {known : EntityMap} {p p' : Position} {markup markup' : Markup}
      {later later' : List (Position × Markup)} (place : p.blur kept = p'.blur kept)
      (first : markup.Respells known markup')
      (more : PiecesRespell (markup.declares known) later later') :
      PiecesRespell known ((p, markup) :: later) ((p', markup') :: later')

/-- What is found in a text, at the place that it is told with. -/
def place {α : Type} (text : String) (found : Located α) : Position × α :=
  ((LineIndex.of text.toList).position found.offset, found.item)

/-- The pieces of a text up to a fault, and the fault. -/
def found (text : String) : Scan := scan (dropByteOrderMark text.toList)

/-- The texts are the same but for how they spell the paths of imports, and for columns that are not
    kept. -/
structure TextRespells (known : EntityMap) (text text' : String) : Prop where
  pieces : PiecesRespell kept known ((found text).pieces.map (place text))
    ((found text').pieces.map (place text'))
  fault : ((found text).fault.map fun f => ((place text f).1.blur kept, f.item)) =
    (found text').fault.map fun f => ((place text' f).1.blur kept, f.item)

section

variable {kept}

theorem plainAttribute_eq {attr attr' : String × String} (h : AttributeRespells attr attr') :
    plainAttribute attr = plainAttribute attr' := by
  cases h with
  | same => rfl
  | href spelled ink ink' => simp only [plainAttribute, if_true, plainHref_eq spelled ink ink']

theorem PiecesRespell.refl (known : EntityMap) (pieces : List (Position × Markup)) :
    PiecesRespell kept known pieces pieces := by
  induction pieces generalizing known with
  | nil => exact .nil known
  | cons piece later ih => exact .cons rfl (.same _) (ih _)

theorem TextRespells.refl (known : EntityMap) (text : String) :
    TextRespells kept known text text := ⟨.refl known _, rfl⟩

/-! ## Respelling again -/

theorem AttributeRespells.trans {attr attr' attr'' : String × String}
    (h : AttributeRespells attr attr') (h' : AttributeRespells attr' attr'') :
    AttributeRespells attr attr'' := by
  cases h with
  | same => exact h'
  | href spelled ink ink' =>
    cases h' with
    | same => exact .href spelled ink ink'
    | href spelled' _ ink'' => exact .href (spelled.trans spelled') ink ink''

theorem attributesRespell_trans {read read' read'' : List (String × String)}
    (h : List.Forall₂ AttributeRespells read read')
    (h' : List.Forall₂ AttributeRespells read' read'') :
    List.Forall₂ AttributeRespells read read'' := by
  induction h generalizing read'' with
  | nil => exact h'
  | cons hattr _ ih =>
    cases h' with
    | cons hattr' hlater' => exact .cons (hattr.trans hattr') (ih hlater')

theorem BodyRespells.trans {known : EntityMap} {body body' body'' : List Char}
    (h : BodyRespells known body body') (h' : BodyRespells known body' body'') :
    BodyRespells known body body'' := by
  obtain ⟨hname, himports, read, read', hread, hread', hspelled⟩ := h
  obtain ⟨hname', _, again, read'', hagain, hread'', hspelled'⟩ := h'
  obtain rfl : read' = again := Except.ok.inj (hread'.2.symm.trans hagain.2)
  exact ⟨hname.trans hname', himports, read, read'', hread, hread'',
    attributesRespell_trans hspelled hspelled'⟩

theorem Markup.Respells.trans {known : EntityMap} {markup markup' markup'' : Markup}
    (h : markup.Respells known markup') (h' : markup'.Respells known markup'') :
    markup.Respells known markup'' := by
  cases h with
  | same => exact h'
  | opening hbody =>
    cases h' with
    | same => exact .opening hbody
    | opening hbody' => exact .opening (hbody.trans hbody')
  | empty hbody =>
    cases h' with
    | same => exact .empty hbody
    | empty hbody' => exact .empty (hbody.trans hbody')

theorem Markup.Respells.declares_eq {known : EntityMap} {markup markup' : Markup}
    (h : markup.Respells known markup') : markup.declares known = markup'.declares known := by
  cases h <;> rfl

theorem PiecesRespell.trans {known : EntityMap} {pieces pieces' pieces'' : List (Position × Markup)}
    (h : PiecesRespell kept known pieces pieces') (h' : PiecesRespell kept known pieces' pieces'') :
    PiecesRespell kept known pieces pieces'' := by
  induction h generalizing pieces'' with
  | nil => exact h'
  | cons hplace hfirst _ ih =>
    cases h' with
    | cons hplace' hfirst' hmore' =>
      exact .cons (hplace.trans hplace') (hfirst.trans hfirst')
        (ih (hfirst.declares_eq ▸ hmore'))

/-- Imports may be spelled differently one after another. -/
theorem TextRespells.trans {known : EntityMap} {text text' text'' : String}
    (h : TextRespells kept known text text') (h' : TextRespells kept known text' text'') :
    TextRespells kept known text text'' :=
  ⟨h.pieces.trans h'.pieces, h.fault.trans h'.fault⟩

/-! ## Reading respelled texts -/

/-- The open elements are the same after blurring. -/
structure OpenElement.Near (kept : Position → Bool) (o o' : OpenElement) : Prop where
  tag : o.tag.blur kept = o'.tag.blur kept
  fullName : o.fullName = o'.fullName
  children : o.children.map (Node.blur kept) = o'.children.map (Node.blur kept)

/-- What has been read is the same after blurring. -/
structure Nesting.Near (kept : Position → Bool) (n n' : Nesting) : Prop where
  entities : n.entities = n'.entities
  opened : List.Forall₂ (OpenElement.Near kept) n.opened n'.opened
  root : n.root.map (Element.blur kept) = n'.root.map (Element.blur kept)

/-- Both fail alike, or both go on and what they give is related. -/
def NearResults {α : Type} (kept : Position → Bool) (related : α → α → Prop) :
    Except Malformed α → Except Malformed α → Prop
  | .ok a, .ok a' => related a a'
  | .error m, .error m' => m.blur kept = m'.blur kept
  | _, _ => False

variable {n n' : Nesting} {o o' : OpenElement} {p p' : Position}

theorem Tag.name_of_blur {tag tag' : Tag} (h : tag.blur kept = tag'.blur kept) :
    tag.name = tag'.name := by
  have hname : (tag.blur kept).name = (tag'.blur kept).name := congrArg Tag.name h
  exact hname

theorem Tag.position_of_blur {tag tag' : Tag} (h : tag.blur kept = tag'.blur kept) :
    tag.position.blur kept = tag'.position.blur kept := by
  have hposition : (tag.blur kept).position = (tag'.blur kept).position := congrArg Tag.position h
  exact hposition

theorem OpenElement.Near.close (h : o.Near kept o') :
    o.close.blur kept = o'.close.blur kept := by
  simp only [OpenElement.close, Element.blur, Node.blurAll_eq_map, List.map_reverse, h.tag,
    h.children]

theorem OpenElement.Near.cons {node node' : Node} (h : o.Near kept o')
    (hnode : node.blur kept = node'.blur kept) :
    OpenElement.Near kept { o with children := node :: o.children }
      { o' with children := node' :: o'.children } :=
  ⟨h.tag, h.fullName, by rw [List.map_cons, List.map_cons, hnode, h.children]⟩

theorem Malformed.blur_eq (hp : p.blur kept = p'.blur kept) (fault : Fault)
    (element : Option String) :
    Malformed.blur kept ⟨fault, p, element⟩ = Malformed.blur kept ⟨fault, p', element⟩ := by
  simp only [Malformed.blur, hp]

theorem tagOf_of_reads {known : EntityMap} {body : List Char}
    {attributes : List (String × String)} (h : Reads known body attributes) (p : Position) :
    tagOf known p body = .ok ⟨String.ofList (localName (nameOf body)), attributes, p⟩ := by
  simp only [tagOf, h.1, h.2]

/-- The tags of a body at two places are the same after blurring. -/
theorem near_tagOf (known : EntityMap) (body : List Char) (hp : p.blur kept = p'.blur kept) :
    NearResults kept (fun tag tag' => tag.blur kept = tag'.blur kept) (tagOf known p body)
      (tagOf known p' body) := by
  simp only [tagOf]
  split
  · exact Malformed.blur_eq hp _ _
  · exact Malformed.blur_eq hp _ _
  · simp only [NearResults, Tag.blur, hp]

/-- Tags that spell a path differently are the same after blurring. -/
theorem near_tagOf_respells {known : EntityMap} {body body' : List Char}
    (h : BodyRespells known body body') (hp : p.blur kept = p'.blur kept) :
    NearResults kept (fun tag tag' => tag.blur kept = tag'.blur kept) (tagOf known p body)
      (tagOf known p' body') := by
  obtain ⟨read, read', hread, hread', hspelled⟩ := h.attributes
  have hplain : read.map plainAttribute = read'.map plainAttribute := by
    rw [← List.forall₂_eq_eq_eq, List.forall₂_map_left_iff, List.forall₂_map_right_iff]
    exact hspelled.imp fun _ _ => plainAttribute_eq
  rw [tagOf_of_reads hread, tagOf_of_reads hread', ← h.name]
  simp only [NearResults, Tag.blur, h.imports, if_true, hplain, hp]

namespace Nesting.Near

/-- One more element is open. -/
theorem begin {tag tag' : Tag} (h : n.Near kept n') (htag : tag.blur kept = tag'.blur kept)
    (fullName : List Char) :
    Nesting.Near kept { n with opened := ⟨tag, fullName, []⟩ :: n.opened }
      { n' with opened := ⟨tag', fullName, []⟩ :: n'.opened } :=
  ⟨h.entities, .cons ⟨htag, rfl, rfl⟩ h.opened, h.root⟩

theorem innermost?_eq (h : n.Near kept n') : n.innermost? = n'.innermost? := by
  rcases n with ⟨entities, opened, root⟩
  rcases n' with ⟨entities', opened', root'⟩
  obtain ⟨_, hopened, _⟩ := h
  cases hopened with
  | nil => rfl
  | cons ho _ => exact congrArg some (Tag.name_of_blur ho.tag)

theorem isEmpty_eq (h : n.Near kept n') : n.opened.isEmpty = n'.opened.isEmpty := by
  rcases n with ⟨entities, opened, root⟩
  rcases n' with ⟨entities', opened', root'⟩
  obtain ⟨_, hopened, _⟩ := h
  cases hopened <;> rfl

theorem addText (h : n.Near kept n') (content : String) :
    (n.addText content).Near kept (n'.addText content) := by
  rcases n with ⟨entities, opened, root⟩
  rcases n' with ⟨entities', opened', root'⟩
  obtain ⟨he, hopened, hroot⟩ := h
  cases hopened with
  | nil => exact ⟨he, .nil, hroot⟩
  | cons ho houter => exact ⟨he, .cons (ho.cons rfl) houter, hroot⟩

theorem addElement {e e' : Element} (h : n.Near kept n') (he : e.blur kept = e'.blur kept) :
    NearResults kept (Nesting.Near kept) (n.addElement e) (n'.addElement e') := by
  rcases n with ⟨entities, opened, root⟩
  rcases n' with ⟨entities', opened', root'⟩
  obtain ⟨hentities, hopened, hroot⟩ := h
  have htag : e.tag.blur kept = e'.tag.blur kept := by
    have htags : (e.blur kept).tag = (e'.blur kept).tag := congrArg Element.tag he
    exact htags
  cases hopened with
  | cons ho houter =>
    have hnode : (e.blur kept).toNode = (e'.blur kept).toNode := congrArg Element.toNode he
    exact ⟨hentities, .cons (ho.cons hnode) houter, hroot⟩
  | nil =>
    rcases root with _ | root <;> rcases root' with _ | root'
    · exact ⟨hentities, .nil, congrArg some he⟩
    · cases hroot
    · cases hroot
    · have hname : e.name = e'.name := Tag.name_of_blur htag
      simp only [Nesting.addElement, NearResults, hname]
      exact Malformed.blur_eq (Tag.position_of_blur htag) _ _

theorem step_opening {body body' : List Char} (h : n.Near kept n')
    (htag : NearResults kept (fun tag tag' => tag.blur kept = tag'.blur kept)
      (tagOf n.entities p body) (tagOf n'.entities p' body')) (hname : nameOf body = nameOf body') :
    NearResults kept (Nesting.Near kept) (n.step p (.opening body))
      (n'.step p' (.opening body')) := by
  simp only [Nesting.step]
  rcases hx : tagOf n.entities p body with m | tag <;>
    rcases hx' : tagOf n'.entities p' body' with m' | tag' <;> rw [hx, hx'] at htag
  · exact htag
  · cases htag
  · cases htag
  · rw [← hname]
    exact h.begin htag _

theorem step_empty {body body' : List Char} (h : n.Near kept n')
    (htag : NearResults kept (fun tag tag' => tag.blur kept = tag'.blur kept)
      (tagOf n.entities p body) (tagOf n'.entities p' body')) :
    NearResults kept (Nesting.Near kept) (n.step p (.empty body)) (n'.step p' (.empty body')) := by
  simp only [Nesting.step]
  rcases hx : tagOf n.entities p body with m | tag <;>
    rcases hx' : tagOf n'.entities p' body' with m' | tag' <;> rw [hx, hx'] at htag
  · exact htag
  · cases htag
  · cases htag
  · exact h.addElement (congrArg (Element.mk · []) htag : Element.blur kept ⟨tag, []⟩ = _)

theorem step_closing (h : n.Near kept n') (hp : p.blur kept = p'.blur kept) (name : List Char) :
    NearResults kept (Nesting.Near kept) (n.step p (.closing name))
      (n'.step p' (.closing name)) := by
  rcases n with ⟨entities, opened, root⟩
  rcases n' with ⟨entities', opened', root'⟩
  obtain ⟨hentities, hopened, hroot⟩ := h
  cases hopened with
  | nil => exact Malformed.blur_eq hp _ _
  | cons ho houter =>
    simp only [Nesting.step, ← ho.fullName]
    split
    · exact addElement ⟨hentities, houter, hroot⟩ ho.close
    · rw [NearResults, Tag.name_of_blur ho.tag]
      exact Malformed.blur_eq hp _ _

/-- A piece of markup and one that respells it lead on alike. -/
theorem step {markup markup' : Markup} (h : n.Near kept n') (hp : p.blur kept = p'.blur kept)
    (hm : markup.Respells n.entities markup') :
    NearResults kept (Nesting.Near kept) (n.step p markup) (n'.step p' markup') := by
  cases hm with
  | opening hbody =>
    exact h.step_opening (h.entities ▸ near_tagOf_respells hbody hp) hbody.name
  | empty hbody => exact h.step_empty (h.entities ▸ near_tagOf_respells hbody hp)
  | same =>
    cases markup with
    | opening body => exact h.step_opening (h.entities ▸ near_tagOf _ body hp) rfl
    | empty body => exact h.step_empty (h.entities ▸ near_tagOf _ body hp)
    | closing name => exact h.step_closing hp name
    | text raw =>
      simp only [Nesting.step, h.isEmpty_eq, ← h.entities, h.innermost?_eq]
      split
      · exact h
      · split
        · exact Malformed.blur_eq hp _ _
        · exact h.addText _
    | verbatim content => exact h.addText _
    | doctype content => exact ⟨by rw [h.entities], h.opened, h.root⟩
    | comment => exact h
    | instruction => exact h

theorem entities_addText (n : Nesting) (content : String) :
    (n.addText content).entities = n.entities := by
  rw [Nesting.addText]
  split <;> rfl

theorem entities_addElement {n m : Nesting} {e : Element} (h : n.addElement e = .ok m) :
    m.entities = n.entities := by
  unfold Nesting.addElement at h
  split at h <;> cases h <;> rfl

/-- A step leaves the entities known that its piece declares. -/
theorem entities_step {markup : Markup} {m : Nesting} (h : n.step p markup = .ok m) :
    m.entities = markup.declares n.entities := by
  cases stepped_of_step h with
  | empty _ added => exact entities_addElement added
  | closing _ added => exact (entities_addElement added).trans rfl
  | text => exact entities_addText n _
  | verbatim content => exact entities_addText n _
  | _ => rfl

theorem run {index index' : LineIndex} {pieces pieces' : List (Located Markup)} (h : n.Near kept n')
    (hpieces : PiecesRespell kept n.entities
      (pieces.map fun found => (index.position found.offset, found.item))
      (pieces'.map fun found => (index'.position found.offset, found.item))) :
    NearResults kept (Nesting.Near kept) (Nesting.run index n pieces)
      (Nesting.run index' n' pieces') := by
  induction pieces generalizing n n' pieces' with
  | nil =>
    cases pieces' with
    | nil => exact h
    | cons piece' later' => cases hpieces
  | cons piece later ih =>
    cases pieces' with
    | nil => cases hpieces
    | cons piece' later' =>
      cases hpieces with
      | cons hplace hfirst hmore =>
        have hstep := h.step hplace hfirst
        rw [Nesting.run, Nesting.run]
        rcases hn : n.step (index.position piece.offset) piece.item with malformed | m <;>
          rcases hn' : n'.step (index'.position piece'.offset) piece'.item with malformed' | m' <;>
          rw [hn, hn'] at hstep
        · exact hstep
        · cases hstep
        · cases hstep
        · exact ih hstep (entities_step hn ▸ hmore)

theorem finish (h : n.Near kept n') :
    blurRead kept n.finish = blurRead kept n'.finish := by
  rcases n with ⟨entities, opened, root⟩
  rcases n' with ⟨entities', opened', root'⟩
  obtain ⟨hentities, hopened, hroot⟩ := h
  cases hopened with
  | cons ho houter =>
    simp only [Nesting.finish, blurRead, Tag.name_of_blur ho.tag]
    exact congrArg Except.error (Malformed.blur_eq (Tag.position_of_blur ho.tag) _ _)
  | nil =>
    rcases root with _ | root <;> rcases root' with _ | root'
    · rfl
    · cases hroot
    · cases hroot
    · exact congrArg Except.ok (Option.some.inj hroot)

end Nesting.Near

/-- Texts that only differ in how they spell the paths of imports are read alike. -/
theorem parse_of_respells {entities : EntityMap} {text text' : String}
    (h : TextRespells kept entities text text') :
    blurRead kept (Element.parse entities text) = blurRead kept (Element.parse entities text') := by
  have hstart : Nesting.Near kept ⟨entities, [], none⟩ ⟨entities, [], none⟩ := ⟨rfl, .nil, rfl⟩
  have hrun := hstart.run h.pieces
  have hfault := h.fault
  simp only [found] at hfault
  unfold Element.parse
  dsimp only
  rcases hn : Nesting.run (LineIndex.of text.toList) ⟨entities, [], none⟩
      (scan (dropByteOrderMark text.toList)).pieces with m | n <;>
    rcases hn' : Nesting.run (LineIndex.of text'.toList) ⟨entities, [], none⟩
      (scan (dropByteOrderMark text'.toList)).pieces with m' | n' <;>
    simp only [found, hn, hn'] at hrun
  · exact congrArg Except.error hrun
  · cases hrun
  · cases hrun
  · rcases hf : (scan (dropByteOrderMark text.toList)).fault with _ | ⟨offset, fault⟩ <;>
      rcases hf' : (scan (dropByteOrderMark text'.toList)).fault with _ | ⟨offset', fault'⟩ <;>
      rw [hf, hf'] at hfault
    · exact hrun.finish
    · cases hfault
    · cases hfault
    · simp only [Option.map_some, Option.some.injEq, place, Prod.mk.injEq] at hfault
      obtain ⟨hplace, rfl⟩ := hfault
      simp only [blurRead, Nesting.Near.innermost?_eq hrun]
      exact congrArg Except.error (Malformed.blur_eq hplace _ _)

end

end Xml

end SchemaFamily
