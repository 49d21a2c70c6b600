import SchemaFamily.Draft.Reading
import SchemaFamily.Proofs.Definition.Slots
import SchemaFamily.Proofs.Xml.Respelling

/-
  Drafts of respelled texts. What is read from an element is blurred as the element is: only the
  paths of imports and the places depend on what `blur` changes. A reader `Mirrors` this if it reads
  the same from a blurred element with blurred definitions, then blurred, and fails with the same
  error; each reader does, so a draft is read from a blurred tree as its own blurred draft
  (`Draft.ofElement_blur`), and texts that respell each other have drafts that do
  (`read_of_respells`).
-/

namespace SchemaFamily

open Xml SchemaFamily.Path

section

variable (kept : Position → Bool)

/-! ## Blurred drafts -/

/-- The usage at a blurred place. -/
def Usage.blur (u : Usage) : Usage := { u with position := u.position.blur kept }

theorem Usage.blur_reference (kind : Kind) (name : String) :
    (Usage.reference kind name).blur kept = .reference kind name := by
  simp [blur, reference]

theorem Usage.blur_inline (kind : Kind) (id : DeclarationId) :
    (Usage.inline kind id).blur kept = .inline kind id := by
  simp [blur, inline]

/-- The definition and its usages at blurred places. -/
def Definition.blur (d : Definition) : Definition :=
  { d.mapUsages (Usage.blur kept) with
    metadata := { d.metadata with position := d.metadata.position.blur kept } }

/-- The definition of a draft at blurred places. -/
def Drafted.blur (d : Drafted) : Drafted := { d with definition := d.definition.blur kept }

/-- The import at a blurred place, its path spelled plainly. -/
def Import.blur (i : Import) : Import := ⟨plainHref i.href, i.position.blur kept⟩

/-- The draft with its imports and its definitions blurred. -/
def Draft.blur (d : Draft) : Draft where
  header := d.header
  imports := d.imports.map (Import.blur kept)
  definitions := d.definitions.map (Drafted.blur kept)

theorem Definition.blur_blur {coarse kept : Position → Bool}
    (h : ∀ p, coarse p = true → kept p = true) (d : Definition) :
    (d.blur kept).blur coarse = d.blur coarse := by
  have hbody : ((d.mapUsages (Usage.blur kept)).mapUsages (Usage.blur coarse)).body =
      (d.mapUsages (Usage.blur coarse)).body := by
    rw [mapUsages_eq_mapSlots, mapUsages_eq_mapSlots, mapUsages_eq_mapSlots, mapSlots_mapSlots]
    simp only [Usage.blur, Position.blur_blur h]
  have hposition := Position.blur_blur h d.metadata.position
  refine Eq.trans (congrArg (Definition.mk d.name _) hbody) ?_
  rw [blur]
  simp only [blur, hposition]
  rfl

/-- Drafts that are the same after blurring are so where fewer columns are kept. -/
theorem Draft.blur_of_blur {coarse kept : Position → Bool}
    (h : ∀ p, coarse p = true → kept p = true) {d d' : Draft} (hd : d.blur kept = d'.blur kept) :
    d.blur coarse = d'.blur coarse := by
  have hblur (d : Draft) : (d.blur kept).blur coarse = d.blur coarse := by
    have himport : Import.blur coarse ∘ Import.blur kept = Import.blur coarse := funext fun i => by
      simp only [Function.comp_apply, Import.blur, plainHref_plainHref, Position.blur_blur h]
    have hdrafted : Drafted.blur coarse ∘ Drafted.blur kept = Drafted.blur coarse :=
      funext fun drafted => by
        simp only [Function.comp_apply, Drafted.blur, Definition.blur_blur h]
    simp only [blur, List.map_map, himport, hdrafted]
  rw [← hblur d, hd, hblur d']

/-! ## What an element says -/

theorem lookup_plainAttribute (attributes : List (String × String)) (key : String) :
    (attributes.map plainAttribute).lookup key =
      (attributes.lookup key).map fun value =>
        if key = "href" then plainHref value else value := by
  induction attributes with
  | nil => rfl
  | cons attr later ih =>
    rw [List.map_cons, List.lookup_cons, List.lookup_cons, ih]
    by_cases hkey : key = attr.1
    · subst hkey
      simp [plainAttribute]
    · have hne : (key == attr.1) = false := beq_false_of_ne hkey
      simp only [plainAttribute, hne]

@[simp]
theorem Xml.Tag.name_blur (tag : Tag) : (tag.blur kept).name = tag.name := rfl

namespace Xml.Element

variable (e : Element)

@[simp]
theorem name_blur : (e.blur kept).name = e.name := rfl

theorem blur_mk (tag : Tag) (children : List Node) :
    Element.blur kept ⟨tag, children⟩ = ⟨tag.blur kept, Node.blurAll kept children⟩ := rfl

@[simp]
theorem position_blur : (e.blur kept).position = e.position.blur kept := rfl

@[simp]
theorem children_blur : (e.blur kept).children = e.children.map (Node.blur kept) :=
  Node.blurAll_eq_map kept e.children

theorem attributes_blur : (e.blur kept).tag.attributes =
    if e.name = "import" then e.tag.attributes.map plainAttribute else e.tag.attributes := rfl

/-- What an attribute says is the same, unless it is the path of an import. -/
theorem attribute?_blur {key : String} (h : key ≠ "href") :
    (e.blur kept).attribute? key = e.attribute? key := by
  rw [attribute?, attribute?, attributes_blur]
  split
  · rw [lookup_plainAttribute]
    simp only [if_neg h, Option.map_id_fun']
    rfl
  · rfl

theorem attribute?_blur_of_name (h : e.name ≠ "import") (key : String) :
    (e.blur kept).attribute? key = e.attribute? key := by
  rw [attribute?, attribute?, attributes_blur, if_neg h]

theorem attribute?_blur_href (h : e.name = "import") :
    (e.blur kept).attribute? "href" = (e.attribute? "href").map plainHref := by
  rw [attribute?, attribute?, attributes_blur, if_pos h, lookup_plainAttribute]
  simp only [if_true]

@[simp]
theorem elements_blur : (e.blur kept).elements = e.elements.map (Element.blur kept) := by
  rw [elements, elements, children_blur, List.filterMap_map, List.map_filterMap]
  refine List.filterMap_congr fun node _ => ?_
  cases node <;> rfl

@[simp]
theorem childrenNamed_blur (name : String) :
    (e.blur kept).childrenNamed name = (e.childrenNamed name).map (Element.blur kept) := by
  rw [childrenNamed, childrenNamed, elements_blur, List.filter_map]
  rfl

@[simp]
theorem child?_blur (name : String) :
    (e.blur kept).child? name = (e.child? name).map (Element.blur kept) := by
  rw [child?_eq_head?, child?_eq_head?, childrenNamed_blur, List.head?_map]

end Xml.Element

mutual

theorem content_blur : ∀ node : Node, (node.blur kept).content = node.content
  | .text _ => rfl
  | .element _ children => contents_blurAll children

theorem contents_blurAll : ∀ nodes : List Node,
    Node.contents (Node.blurAll kept nodes) = Node.contents nodes
  | [] => rfl
  | node :: later => by
    rw [Node.blurAll, Node.contents, Node.contents, content_blur node, contents_blurAll later]

end

@[simp]
theorem text_blur (e : Element) : (e.blur kept).text = e.text :=
  congrArg normalizeSpace (contents_blurAll kept e.children)

@[simp]
theorem childText?_blur (e : Element) (name : String) :
    (e.blur kept).childText? name = e.childText? name := by
  rw [Element.childText?, Element.childText?, Element.child?_blur, Option.map_map]
  refine congrArg (Option.filter _) (congrArg (Option.map · _) ?_)
  exact funext (text_blur kept)

/-! ## Prose -/

theorem anchorText_blur {e : Element} (h : e.name = "a") :
    anchorText (e.blur kept) = anchorText e := by
  have hname : e.name ≠ "import" := by rw [h]; decide
  rw [anchorText, anchorText, e.attribute?_blur_of_name kept hname, text_blur]

mutual

theorem node_blur (p : Paragraphs) : ∀ node : Node, p.node (node.blur kept) = p.node node
  | .text _ => rfl
  | .element tag children => by
    rw [Node.blur, Paragraphs.node, Paragraphs.node, nodes_blurAll _ children,
      nodes_blurAll _ children]
    refine if_congr Iff.rfl rfl ?_
    by_cases hname : tag.name = "a"
    · have htext := @anchorText_blur kept ⟨tag, children⟩ hname
      rw [if_pos hname, if_pos (show (tag.blur kept).name = "a" from hname), ← htext]
      rfl
    · rw [if_neg hname, if_neg (show ¬ (tag.blur kept).name = "a" from hname)]

theorem nodes_blurAll (p : Paragraphs) : ∀ nodes : List Node,
    p.nodes (Node.blurAll kept nodes) = p.nodes nodes
  | [] => rfl
  | node :: later => by
    rw [Node.blurAll, Paragraphs.nodes, Paragraphs.nodes, node_blur p node, nodes_blurAll _ later]

end

@[simp]
theorem prose?_blur (e : Element) : prose? (e.blur kept) = prose? e := by
  have hnodes : Paragraphs.nodes {} (e.blur kept).children = Paragraphs.nodes {} e.children :=
    nodes_blurAll kept {} e.children
  rw [prose?, prose?, hnodes]

@[simp]
theorem childProse?_blur (e : Element) (name : String) :
    childProse? (e.blur kept) name = childProse? e name := by
  rw [childProse?, childProse?, Element.child?_blur, Option.bind_map]
  exact congrArg (Option.bind _) (funext (prose?_blur kept))

/-! ## Documentation and values -/

theorem exampleOf_blur {e : Element} (h : e.name = "example") :
    exampleOf (e.blur kept) = exampleOf e := by
  have hname : e.name ≠ "import" := by rw [h]; decide
  rw [exampleOf, exampleOf, e.attribute?_blur_of_name kept hname,
    e.attribute?_blur_of_name kept hname, childProse?_blur, childProse?_blur,
    Element.children_blur, List.map_map]
  congr 2
  refine congrArg String.join (List.map_congr_left fun node _ => ?_)
  cases node with
  | text content => rfl
  | element tag children =>
    show (if tag.name = "description" ∨ tag.name = "remarks" then ""
      else " " ++ Element.text (Element.blur kept ⟨tag, children⟩)) = _
    rw [text_blur]

@[simp]
theorem metadataOf_blur (e : Element) :
    metadataOf (e.blur kept) =
      { metadataOf e with position := (metadataOf e).position.blur kept } := by
  have hexamples : ((e.blur kept).childrenNamed "example").map exampleOf =
      (e.childrenNamed "example").map exampleOf := by
    rw [Element.childrenNamed_blur, List.map_map]
    refine List.map_congr_left fun x hx => exampleOf_blur kept ?_
    simpa using (List.mem_filter.1 hx).2
  rw [metadataOf, hexamples, childText?_blur, childProse?_blur, childProse?_blur]
  rfl

@[simp]
theorem allowedValues_blur (e : Element) : allowedValues (e.blur kept) = allowedValues e := by
  have hvalue : ∀ v : Element, (((v.blur kept).attribute? "value").getD (v.blur kept).text) =
      (v.attribute? "value").getD v.text := fun v => by
    rw [v.attribute?_blur kept (by decide), text_blur]
  simp only [allowedValues, Element.childrenNamed_blur, List.flatMap_map, List.map_append,
    List.map_flatMap, List.map_map, List.flatMap_append, Function.comp_def, hvalue,
    List.flatMap_assoc]

@[simp]
theorem flagValues_blur (e : Element) : flagValues (e.blur kept) = flagValues e := by
  rw [flagValues, flagValues, allowedValues_blur, Element.childrenNamed_blur, List.map_map]
  exact congrArg (· ++ _) (List.map_congr_left fun v _ => text_blur kept v)

@[simp]
theorem jsonKeyOf_blur (e : Element) : jsonKeyOf (e.blur kept) = jsonKeyOf e := by
  rw [jsonKeyOf, jsonKeyOf, Element.child?_blur, Option.bind_map]
  refine congrArg (Option.bind _) (funext fun key => ?_)
  exact key.attribute?_blur kept (by decide)

/-! ## Attributes -/

@[simp]
theorem failAt_blur {α : Type} (e : Element) (fault : DraftFault) :
    (failAt (e.blur kept) fault : Except DraftError α) = failAt e fault := by
  rw [failAt, failAt, Element.name_blur, Element.position_blur, Position.line_blur]

section

variable {key : String} (h : key ≠ "href") (e : Element)

include h

theorem required_blur : required (e.blur kept) key = required e key := by
  rw [required, required, e.attribute?_blur kept h, failAt_blur]

theorem yesOrNo_blur : yesOrNo (e.blur kept) key = yesOrNo e key := by
  rw [yesOrNo, yesOrNo, e.attribute?_blur kept h]
  simp only [failAt_blur]

theorem keyword?_blur {α : Type} (ofKeyword : String → Except KeywordFault α) :
    keyword? (e.blur kept) key ofKeyword = keyword? e key ofKeyword := by
  rw [keyword?, keyword?, e.attribute?_blur kept h]
  simp only [failAt_blur]

theorem number?_blur : number? (e.blur kept) key = number? e key := by
  rw [number?, number?, e.attribute?_blur kept h]
  simp only [failAt_blur]

end

@[simp]
theorem datatype?_blur (e : Element) : datatype? (e.blur kept) = datatype? e :=
  keyword?_blur kept (by decide) e Datatype.ofKeyword

/-- What an import names is not blank, and is then spelled plainly. -/
theorem required_href_blur {e : Element} (h : e.name = "import") :
    required (e.blur kept) "href" = (required e "href").map plainHref := by
  rw [required, required, e.attribute?_blur_href kept h, failAt_blur]
  cases e.attribute? "href" with
  | none => rfl
  | some value =>
    simp only [Option.map_some, hasInk_plainHref]
    split <;> rfl

@[simp]
theorem occurrence_blur (u : Usage) (e : Element) :
    occurrence (u.blur kept) (e.blur kept) = (occurrence u e).map (Usage.blur kept) := by
  rw [occurrence, occurrence, number?_blur kept (by decide), yesOrNo_blur kept (by decide),
    keyword?_blur kept (by decide), childProse?_blur, childProse?_blur]
  cases number? e "min-occurs" with
  | error => rfl
  | ok minOccurs =>
    cases yesOrNo e "required" with
    | error => rfl
    | ok required =>
      cases keyword? e "max-occurs" MaxOccurs.ofKeyword with
      | error => rfl
      | ok maxOccurs => rfl

@[simp]
theorem groupOf_blur (e : Element) : groupOf (e.blur kept) = groupOf e := by
  rw [groupOf, groupOf, required_blur kept (by decide), keyword?_blur kept (by decide),
    keyword?_blur kept (by decide)]

/-! ## Readers -/

/-- With blurred definitions before it the second reads what the first does, seen through `φ`, and
    blurred definitions; both fail with the same error. -/
def Mirrors {α : Type} (φ : α → α) (r r' : Reading α) : Prop :=
  ∀ definitions, r'.run (definitions.map (Drafted.blur kept)) =
    (r.run definitions).map fun result => (φ result.1, result.2.map (Drafted.blur kept))

namespace Mirrors

variable {kept} {α β : Type} {φ : α → α} {ψ : β → β}

theorem pure {a a' : α} (h : a' = φ a) : Mirrors kept φ (Pure.pure a) (Pure.pure a') := by
  intro definitions
  rw [h]
  rfl

theorem bind {r r' : Reading α} {f f' : α → Reading β} (hr : Mirrors kept φ r r')
    (hf : ∀ a, Mirrors kept ψ (f a) (f' (φ a))) : Mirrors kept ψ (r >>= f) (r' >>= f') := by
  intro definitions
  rw [StateT.run_bind, StateT.run_bind, hr definitions]
  cases r.run definitions with
  | error error => rfl
  | ok result => exact hf result.1 result.2

theorem lift {x x' : Except DraftError α} (h : x' = x.map φ) :
    Mirrors kept φ (liftM x) (liftM x') := by
  intro definitions
  rw [h]
  cases x <;> rfl

/-- What is read without definitions is read the same. -/
theorem after {x x' : Except DraftError α} {f f' : α → Reading β} (h : x' = x)
    (hf : ∀ a, Mirrors kept ψ (f a) (f' a)) : Mirrors kept ψ (liftM x >>= f) (liftM x' >>= f') := by
  refine bind (φ := id) (lift ?_) hf
  rw [h]
  cases x <;> rfl

theorem addDefinition {scope : Scope} {definition definition' : Definition}
    (h : definition' = definition.blur kept) :
    Mirrors kept id (SchemaFamily.addDefinition scope definition)
      (SchemaFamily.addDefinition scope definition') := by
  intro definitions
  show Except.ok (Handle.ofIndex (definitions.map (Drafted.blur kept)).length, _) =
    Except.ok (Handle.ofIndex definitions.length, _)
  rw [List.length_map, List.map_append, h]
  rfl

end Mirrors

theorem mirrors_occurrence {u u' : Usage} (hu : u.blur kept = u') (e : Element) :
    Mirrors kept (Usage.blur kept) (liftM (occurrence u e)) (liftM (occurrence u' (e.blur kept))) :=
  .lift (hu ▸ occurrence_blur kept u e)

theorem mirrors_defineFlag (scope : Scope) (e : Element) :
    Mirrors kept id (defineFlag scope e) (defineFlag scope (e.blur kept)) := by
  unfold defineFlag
  refine .after (required_blur kept (by decide) e) fun name => ?_
  refine .after (datatype?_blur kept e) fun datatype => ?_
  refine .addDefinition ?_
  rw [metadataOf_blur, allowedValues_blur]
  rfl

theorem mirrors_flagUsage (e : Element) :
    Mirrors kept (Usage.blur kept) (flagUsage e) (flagUsage (e.blur kept)) := by
  unfold flagUsage
  rw [e.attribute?_blur kept (by decide), e.attribute?_blur kept (by decide)]
  cases e.attribute? "ref" with
  | some name =>
    refine .bind (mirrors_occurrence kept (Usage.blur_reference kept _ _) e) fun u => ?_
    refine .after (datatype?_blur kept e) fun datatype => .pure ?_
    rw [flagValues_blur]
    rfl
  | none =>
    cases e.attribute? "name" with
    | none => exact .lift (failAt_blur kept e .unnamedFlag)
    | some name =>
      refine .after (datatype?_blur kept e) fun datatype => ?_
      refine .bind (.addDefinition ?_) fun id =>
        mirrors_occurrence kept (Usage.blur_inline kept _ _) e
      rw [metadataOf_blur, flagValues_blur]
      rfl

theorem mirrors_flagUsages (es : List Element) :
    Mirrors kept (List.map (Usage.blur kept)) (flagUsages es)
      (flagUsages (es.map (Element.blur kept))) := by
  induction es with
  | nil => exact .pure rfl
  | cons e later ih =>
    rw [List.map_cons]
    unfold flagUsages
    rw [Element.name_blur]
    split
    · refine .bind (mirrors_flagUsage kept e) fun u => ?_
      exact .bind ih fun us => .pure rfl
    · refine .bind (mirrors_defineFlag kept .inline e) fun id => ?_
      refine .bind (mirrors_occurrence kept (Usage.blur_inline kept _ _) e) fun u => ?_
      exact .bind ih fun us => .pure rfl
    · exact ih

theorem mirrors_defineField (scope : Scope) (e : Element) :
    Mirrors kept id (defineField scope e) (defineField scope (e.blur kept)) := by
  unfold defineField
  refine .after (required_blur kept (by decide) e) fun name => ?_
  rw [Element.elements_blur]
  refine .bind (mirrors_flagUsages kept e.elements) fun flags => ?_
  refine .after (datatype?_blur kept e) fun datatype => .addDefinition ?_
  rw [metadataOf_blur, jsonKeyOf_blur, Element.child?_blur]
  cases e.child? "json-value-key" with
  | none => rfl
  | some key =>
    have hflag : (key.blur kept).attribute? "flag-name" = key.attribute? "flag-name" :=
      key.attribute?_blur kept (by decide)
    simp only [Option.map_some, text_blur, Option.bind_some, hflag]
    rfl

theorem mirrors_defineAssembly (scope : Scope) (e : Element)
    {model model' : Reading (List ModelItem)}
    (hm : Mirrors kept (List.map (ModelItem.mapUsages (Usage.blur kept))) model model') :
    Mirrors kept id (defineAssembly scope e model) (defineAssembly scope (e.blur kept) model') := by
  unfold defineAssembly
  refine .after (required_blur kept (by decide) e) fun name => ?_
  rw [Element.elements_blur]
  refine .bind (mirrors_flagUsages kept e.elements) fun flags => ?_
  refine .bind hm fun items => .addDefinition ?_
  rw [metadataOf_blur, jsonKeyOf_blur, childText?_blur, e.attribute?_blur kept (by decide)]
  rfl

/-! ## Models -/

theorem mirrors_modelTarget {e : Element} {model model' : Reading (List ModelItem)}
    (hm : Mirrors kept (List.map (ModelItem.mapUsages (Usage.blur kept))) model model') :
    (modelTarget? e model = none ∧ modelTarget? (e.blur kept) model' = none) ∨
      ∃ target target', modelTarget? e model = some target ∧
        modelTarget? (e.blur kept) model' = some target' ∧
        Mirrors kept (Usage.blur kept) target target' := by
  unfold modelTarget?
  rw [Element.name_blur]
  split
  · refine .inr ⟨_, _, rfl, rfl, ?_⟩
    exact .after (required_blur kept (by decide) e) fun name =>
      .pure (Usage.blur_reference kept _ _).symm
  · refine .inr ⟨_, _, rfl, rfl, ?_⟩
    exact .after (required_blur kept (by decide) e) fun name =>
      .pure (Usage.blur_reference kept _ _).symm
  · refine .inr ⟨_, _, rfl, rfl, ?_⟩
    exact .bind (mirrors_defineAssembly kept .inline e hm) fun id =>
      .pure (Usage.blur_inline kept _ _).symm
  · refine .inr ⟨_, _, rfl, rfl, ?_⟩
    exact .bind (mirrors_defineField kept .inline e) fun id =>
      .pure (Usage.blur_inline kept _ _).symm
  · exact .inl ⟨rfl, rfl⟩

theorem mirrors_wrapping (e : Element) (u : Usage) :
    Mirrors kept (Usage.blur kept)
      (do
        if u.kind = .field then
          match ← keyword? e "in-xml" FieldWrapping.ofKeyword with
          | some inXml => return { u with inXml }
          | none => return u
        else return u)
      (do
        if (u.blur kept).kind = .field then
          match ← keyword? (e.blur kept) "in-xml" FieldWrapping.ofKeyword with
          | some inXml => return { u.blur kept with inXml }
          | none => return u.blur kept
        else return u.blur kept) := by
  show Mirrors kept _ (if u.kind = .field then _ else _) (if u.kind = .field then _ else _)
  split
  · refine .after (keyword?_blur kept (by decide) e _) fun wrapping => ?_
    cases wrapping <;> exact .pure rfl
  · exact .pure rfl

theorem mirrors_modelUsage {e : Element} {target target' : Reading Usage}
    (ht : Mirrors kept (Usage.blur kept) target target') :
    Mirrors kept (Usage.blur kept) (modelUsage e target) (modelUsage (e.blur kept) target') := by
  unfold modelUsage
  refine .bind ht fun u => ?_
  refine .bind (mirrors_occurrence kept rfl e) fun u => ?_
  rw [Element.child?_blur]
  cases e.child? "group-as" with
  | some group =>
    refine .after (groupOf_blur kept group) fun g => ?_
    exact .bind (φ := Usage.blur kept) (.pure rfl) fun u => mirrors_wrapping kept e u
  | none => exact .bind (φ := Usage.blur kept) (.pure rfl) fun u => mirrors_wrapping kept e u

mutual

theorem mirrors_modelOf : ∀ nodes : List Node,
    Mirrors kept (List.map (ModelItem.mapUsages (Usage.blur kept))) (modelOf nodes)
      (modelOf (Node.blurAll kept nodes))
  | [] => .pure rfl
  | .text _ :: later => by
    rw [Node.blurAll, Node.blur]
    unfold modelOf
    exact mirrors_modelOf later
  | .element tag children :: later => by
    rw [Node.blurAll, Node.blur]
    unfold modelOf
    rw [Tag.name_blur]
    split
    · exact mirrors_modelItems children
    · exact mirrors_modelOf later

theorem mirrors_modelItems : ∀ nodes : List Node,
    Mirrors kept (List.map (ModelItem.mapUsages (Usage.blur kept))) (modelItems nodes)
      (modelItems (Node.blurAll kept nodes))
  | [] => .pure rfl
  | node :: later => by
    rw [Node.blurAll]
    unfold modelItems
    refine .bind (mirrors_modelItem node) fun item => ?_
    refine .bind (mirrors_modelItems later) fun items => .pure ?_
    cases item <;> simp

theorem mirrors_modelItem : ∀ node : Node,
    Mirrors kept (Option.map (ModelItem.mapUsages (Usage.blur kept))) (modelItem node)
      (modelItem (node.blur kept))
  | .text _ => .pure rfl
  | .element tag children => by
    rw [Node.blur]
    unfold modelItem
    rw [Tag.name_blur, ← Element.blur_mk]
    split
    · exact .bind (mirrors_choiceMembers children) fun members => .pure rfl
    · exact .pure rfl
    · exact .pure rfl
    · rcases mirrors_modelTarget kept (e := ⟨tag, children⟩) (mirrors_modelOf children) with
        ⟨hnone, hnone'⟩ | ⟨target, target', hsome, hsome', htarget⟩
      · rw [hnone, hnone']
        exact .pure rfl
      · rw [hsome, hsome']
        exact .bind (mirrors_modelUsage kept htarget) fun u => .pure rfl

theorem mirrors_choiceMembers : ∀ nodes : List Node,
    Mirrors kept (List.map (Usage.blur kept)) (choiceMembers nodes)
      (choiceMembers (Node.blurAll kept nodes))
  | [] => .pure rfl
  | .text _ :: later => by
    rw [Node.blurAll, Node.blur]
    unfold choiceMembers
    exact mirrors_choiceMembers later
  | .element tag children :: later => by
    rw [Node.blurAll, Node.blur]
    unfold choiceMembers
    rw [← Element.blur_mk]
    rcases mirrors_modelTarget kept (e := ⟨tag, children⟩) (mirrors_modelOf children) with
      ⟨hnone, hnone'⟩ | ⟨target, target', hsome, hsome', htarget⟩
    · rw [hnone, hnone']
      exact mirrors_choiceMembers later
    · rw [hsome, hsome']
      refine .bind (mirrors_modelUsage kept htarget) fun u => ?_
      exact .bind (mirrors_choiceMembers later) fun us => .pure rfl

end

/-! ## Documents -/

theorem mirrors_readBody (es : List Element) :
    Mirrors kept (List.map (Import.blur kept)) (readBody es)
      (readBody (es.map (Element.blur kept))) := by
  induction es with
  | nil => exact .pure rfl
  | cons e later ih =>
    rw [List.map_cons]
    unfold readBody
    rw [Element.name_blur]
    split
    · next hname =>
      refine .bind (.lift (required_href_blur kept hname)) fun href => ?_
      exact .bind ih fun imports => .pure rfl
    · exact .bind (mirrors_defineAssembly kept .everywhere e (mirrors_modelOf kept e.children))
        fun _ => ih
    · exact .bind (mirrors_defineField kept .everywhere e) fun _ => ih
    · exact .bind (mirrors_defineFlag kept .everywhere e) fun _ => ih
    · exact ih

theorem headerOf_blur (path : Path) (root : Element) :
    headerOf path (root.blur kept) = headerOf path root := by
  rw [headerOf, headerOf, yesOrNo_blur kept (by decide)]
  simp (disch := decide) only [childText?_blur, childProse?_blur, Element.attribute?_blur]

/-- The draft of a blurred element is the blurred draft of the element. -/
theorem Draft.ofElement_blur (path : Path) (root : Element) :
    Draft.ofElement path (root.blur kept) = (Draft.ofElement path root).map (Draft.blur kept) := by
  rw [ofElement, ofElement, Element.name_blur, headerOf_blur, Element.elements_blur, failAt_blur]
  split
  · rfl
  · cases headerOf path root with
    | error error => rfl
    | ok header =>
      have hbody := mirrors_readBody kept root.elements []
      simp only [List.map_nil] at hbody
      show (readBody (root.elements.map (Element.blur kept))).run [] >>= _ = Except.map _
        ((readBody root.elements).run [] >>= _)
      rw [hbody]
      cases (readBody root.elements).run [] with
      | error error => rfl
      | ok result => rfl

/-- Texts that only differ in how they spell the paths of imports are refused with the same error,
    or their drafts are the same after blurring. -/
theorem read_of_respells {kept : Position → Bool} {entities : EntityMap} {text text' : String}
    (h : TextRespells kept entities text text') (path : Path) :
    (Draft.read entities path text).map (Draft.blur kept) =
      (Draft.read entities path text').map (Draft.blur kept) := by
  have hparse := parse_of_respells h
  rw [Draft.read, Draft.read]
  rcases hroot : Element.parse entities text with m | root <;>
    rcases hroot' : Element.parse entities text' with m' | root' <;> rw [hroot, hroot'] at hparse
  · have hblur : m.blur kept = m'.blur kept := Except.error.inj hparse
    have hposition : (m.blur kept).position = (m'.blur kept).position :=
      congrArg Malformed.position hblur
    have hfault : m.fault = m'.fault := congrArg (·.fault) hblur
    have helement : m.element = m'.element := congrArg (·.element) hblur
    simp only [hfault, helement, Position.line_of_blur hposition]
  · cases hparse
  · cases hparse
  · have hblur : root.blur kept = root'.blur kept := Except.ok.inj hparse
    exact (Draft.ofElement_blur kept path root).symm.trans
      (hblur ▸ Draft.ofElement_blur kept path root')

end

end SchemaFamily
