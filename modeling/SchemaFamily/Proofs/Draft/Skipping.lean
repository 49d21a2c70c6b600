import SchemaFamily.Proofs.Definition.Slots
import SchemaFamily.Proofs.Draft.Paragraphs
import SchemaFamily.Proofs.Draft.Lexicon

/-
  Elements that are not looked for. A reader `Skims` if it reads from an element that was skimmed
  what it reads from the element, but for places, and fails with the same error, but for its line;
  each reader does, with the lexicon of its context, so a draft is read from a skimmed tree as
  from the tree (`Draft.ofElement_skim`). Hence an element that is put where it is not looked for
  changes nothing, whatever it holds and however places move (`read_of_inserted`).
-/

namespace SchemaFamily

open Xml

/-! ## Drafts without places -/

/-- The usage without its place. -/
def Usage.unplaced (u : Usage) : Usage := { u with position := .unknown }

/-- The definition without its place and those of its usages. -/
def Definition.unplaced (d : Definition) : Definition :=
  { d.mapUsages Usage.unplaced with metadata := { d.metadata with position := .unknown } }

/-- The definition of a draft without its places. -/
def Drafted.unplaced (d : Drafted) : Drafted := { d with definition := d.definition.unplaced }

/-- The import without its place. -/
def Import.unplaced (i : Import) : Import := { i with position := .unknown }

/-- The draft without places. -/
def Draft.unplaced (d : Draft) : Draft where
  header := d.header
  imports := d.imports.map Import.unplaced
  definitions := d.definitions.map Drafted.unplaced

/-- The error without its line. -/
def DraftError.unplaced (error : DraftError) : DraftError := { error with line := 0 }

/-- What is read seen through `φ`, or the error without its line. -/
def readUnplaced {α β : Type} (φ : α → β) : Except DraftError α → Except DraftError β
  | .ok a => .ok (φ a)
  | .error error => .error error.unplaced

/-! ## Elements that are read whole -/

mutual

theorem content_unplaced : ∀ node : Node, node.unplaced.content = node.content
  | .text _ => rfl
  | .element _ children => contents_allUnplaced children

theorem contents_allUnplaced : ∀ nodes : List Node,
    Node.contents (Node.allUnplaced nodes) = Node.contents nodes
  | [] => rfl
  | node :: later => by
    rw [Node.allUnplaced, Node.contents, Node.contents, content_unplaced node,
      contents_allUnplaced later]

end

@[simp]
theorem text_unplaced (e : Element) : e.unplaced.text = e.text :=
  congrArg normalizeSpace (contents_allUnplaced e.children)

mutual

theorem flat_unplaced : ∀ node : Node, node.unplaced.flat = node.flat
  | .text _ => rfl
  | .element tag children => by
    rw [Node.unplaced, Node.flat, Node.flat, flatAll_allUnplaced children]
    have htext := text_unplaced ⟨tag, children⟩
    rw [text_eq_join, text_eq_join] at htext
    refine if_congr Iff.rfl rfl (if_congr Iff.rfl ?_ rfl)
    exact congrArg (Fragment.text · :: pointer ⟨tag, children⟩) htext

theorem flatAll_allUnplaced : ∀ nodes : List Node,
    Node.flatAll (Node.allUnplaced nodes) = Node.flatAll nodes
  | [] => rfl
  | node :: later => by
    rw [Node.allUnplaced, Node.flatAll, Node.flatAll, flat_unplaced node,
      flatAll_allUnplaced later]

end

@[simp]
theorem prose?_unplaced (e : Element) : prose? e.unplaced = prose? e := by
  have hflat : Node.flatAll e.unplaced.children = Node.flatAll e.children :=
    flatAll_allUnplaced e.children
  rw [prose?, prose?, Paragraphs.nodes_eq_foldl, Paragraphs.nodes_eq_foldl, hflat]

namespace Xml

theorem Node.allUnplaced_eq_map (nodes : List Node) :
    Node.allUnplaced nodes = nodes.map Node.unplaced := by
  induction nodes with
  | nil => rfl
  | cons node later ih => rw [allUnplaced, ih, List.map_cons]

theorem Element.elements_unplaced (e : Element) :
    e.unplaced.elements = e.elements.map Element.unplaced := by
  rw [elements, elements, unplaced, Node.allUnplaced_eq_map, List.filterMap_map,
    List.map_filterMap]
  refine List.filterMap_congr fun node _ => ?_
  cases node <;> rfl

theorem Element.child?_unplaced (e : Element) (name : String) :
    e.unplaced.child? name = (e.child? name).map Element.unplaced := by
  rw [child?, child?, elements_unplaced, List.find?_map]
  rfl

end Xml

theorem childProse?_unplaced (e : Element) (name : String) :
    childProse? e.unplaced name = childProse? e name := by
  rw [childProse?, childProse?, Element.child?_unplaced, Option.bind_map]
  exact congrArg (Option.bind _) (funext prose?_unplaced)

theorem exampleOf_unplaced (e : Element) : exampleOf e.unplaced = exampleOf e := by
  rw [exampleOf, exampleOf, childProse?_unplaced, childProse?_unplaced,
    Element.attribute?_unplaced, Element.attribute?_unplaced, Element.unplaced,
    Node.allUnplaced_eq_map, List.map_map]
  congr 2
  refine congrArg String.join (List.map_congr_left fun node _ => ?_)
  cases node with
  | text content => rfl
  | element tag children =>
    show (if tag.name = "description" ∨ tag.name = "remarks" then ""
      else " " ++ Element.text (Element.unplaced ⟨tag, children⟩)) = _
    rw [text_unplaced]

/-! ## What an element says -/

section

variable {known : Lexicon} {name : String} (e : Element)

theorem childText?_skim (h : known.lookup name = some .whole) :
    (e.skim known).childText? name = e.childText? name := by
  rw [Element.childText?, Element.childText?, Element.child?_skim e h, Option.map_map]
  exact congrArg (Option.filter _) (congrArg (Option.map · _) (funext text_unplaced))

theorem childProse?_skim (h : known.lookup name = some .whole) :
    childProse? (e.skim known) name = childProse? e name := by
  rw [childProse?, childProse?, Element.child?_skim e h, Option.bind_map]
  exact congrArg (Option.bind _) (funext prose?_unplaced)

theorem jsonKeyOf_skim (h : known.lookup "json-key" = some (.within .closed)) :
    jsonKeyOf (e.skim known) = jsonKeyOf e := by
  rw [jsonKeyOf, jsonKeyOf, Element.child?_skim e h, Option.bind_map]
  rfl

/-- The lexicon has the documentation of usages. -/
structure Remarked (known : Lexicon) : Prop where
  description : known.lookup "description" = some .whole
  remarks : known.lookup "remarks" = some .whole

/-- The lexicon has the documentation of definitions. -/
structure Documented (known : Lexicon) : Prop extends Remarked known where
  formalName : known.lookup "formal-name" = some .whole
  example_ : known.lookup "example" = some .whole

/-- The lexicon has the values of flags. -/
structure Valued (known : Lexicon) : Prop where
  values : known.lookup "allowed-values" = some (.within .allowedValues)
  constraints : known.lookup "constraint" = some (.within .constraint)

/-- The lexicon has the flags and the key of assemblies and fields. -/
structure Flagged (known : Lexicon) : Prop where
  flag : known.lookup "flag" = some (.within .flagUsage)
  defined : known.lookup "define-flag" = some (.within .flag)
  key : known.lookup "json-key" = some (.within .closed)

/-- The lexicon has what usages of assemblies and fields say. -/
structure Used (known : Lexicon) : Prop extends Remarked known where
  group : known.lookup "group-as" = some (.within .closed)

theorem metadataOf_skim (h : Documented known) :
    metadataOf (e.skim known) = { metadataOf e with position := .unknown } := by
  rw [metadataOf, childText?_skim e h.formalName, childProse?_skim e h.description,
    childProse?_skim e h.remarks, Element.childrenNamed_skim e h.example_, List.map_map]
  have hexamples : exampleOf ∘ Part.take .whole = exampleOf := funext exampleOf_unplaced
  rw [hexamples]
  rfl

theorem allowedValues_skim (h : Valued known) :
    allowedValues (e.skim known) = allowedValues e := by
  have henum (x : Element) : (Part.take (.within .allowedValues) x).childrenNamed "enum" =
      (x.childrenNamed "enum").map (Part.take .whole) := Element.childrenNamed_skim x rfl
  have hlists (x : Element) :
      (Part.take (.within .constraint) x).childrenNamed "allowed-values" =
        (x.childrenNamed "allowed-values").map (Part.take (.within .allowedValues)) :=
    Element.childrenNamed_skim x rfl
  have hvalue (x : Element) :
      ((Part.take .whole x).attribute? "value").getD (Part.take .whole x).text =
        (x.attribute? "value").getD x.text :=
    congrArg (x.attribute? "value").getD (text_unplaced x)
  simp only [allowedValues, Element.childrenNamed_skim e h.values,
    Element.childrenNamed_skim e h.constraints, List.flatMap_map, hlists, List.flatMap_append,
    henum, List.map_append, List.map_flatMap, List.map_map, List.flatMap_assoc,
    Function.comp_def, hvalue]

theorem flagValues_skim (h : Valued known) (hvalue : known.lookup "value" = some .whole) :
    flagValues (e.skim known) = flagValues e := by
  rw [flagValues, flagValues, allowedValues_skim e h, Element.childrenNamed_skim e hvalue,
    List.map_map]
  exact congrArg (· ++ _) (List.map_congr_left fun x _ => text_unplaced x)

end

/-! ## Attributes -/

section

variable {known : Lexicon} (e : Element)

theorem failAt_skim {α β : Type} (φ : α → β) (fault : DraftFault) :
    (failAt (e.skim known) fault : Except DraftError β) =
      readUnplaced φ (failAt e fault : Except DraftError α) := rfl

theorem required_skim (key : String) :
    required (e.skim known) key = readUnplaced id (required e key) := by
  rw [required, required, Element.attribute?_skim]
  split
  · split <;> rfl
  · rfl

theorem yesOrNo_skim (key : String) :
    yesOrNo (e.skim known) key = readUnplaced id (yesOrNo e key) := by
  rw [yesOrNo, yesOrNo, Element.attribute?_skim]
  split <;> rfl

theorem keyword?_skim {α : Type} (key : String) (ofKeyword : String → Except KeywordFault α) :
    keyword? (e.skim known) key ofKeyword = readUnplaced id (keyword? e key ofKeyword) := by
  rw [keyword?, keyword?, Element.attribute?_skim]
  split
  · rfl
  · split <;> rfl

theorem number?_skim (key : String) :
    number? (e.skim known) key = readUnplaced id (number? e key) := by
  rw [number?, number?, Element.attribute?_skim]
  split
  · rfl
  · split <;> rfl

theorem datatype?_skim : datatype? (e.skim known) = readUnplaced id (datatype? e) :=
  keyword?_skim e "as-type" Datatype.ofKeyword

theorem occurrence_skim (h : Remarked known) (u : Usage) :
    occurrence u.unplaced (e.skim known) = readUnplaced Usage.unplaced (occurrence u e) := by
  rw [occurrence, occurrence, number?_skim, yesOrNo_skim, keyword?_skim,
    childProse?_skim e h.description, childProse?_skim e h.remarks]
  cases number? e "min-occurs" with
  | error => rfl
  | ok minOccurs =>
    cases yesOrNo e "required" with
    | error => rfl
    | ok required =>
      cases keyword? e "max-occurs" MaxOccurs.ofKeyword with
      | error => rfl
      | ok maxOccurs => rfl

theorem groupOf_skim : groupOf (e.skim known) = readUnplaced id (groupOf e) := by
  rw [groupOf, groupOf, required_skim, keyword?_skim, keyword?_skim]
  cases required e "name" with
  | error => rfl
  | ok name =>
    cases keyword? e "in-json" JsonGrouping.ofKeyword with
    | error => rfl
    | ok inJson =>
      cases keyword? e "in-xml" XmlGrouping.ofKeyword with
      | error => rfl
      | ok inXml => rfl

end

/-! ## Readers -/

/-- With definitions without places before it the second reads what the first does, seen through
    `φ`, and definitions without places; both fail with the same error, but for the line. -/
def Skims {α : Type} (φ : α → α) (r r' : Reading α) : Prop :=
  ∀ definitions, r'.run (definitions.map Drafted.unplaced) =
    readUnplaced (fun result => (φ result.1, result.2.map Drafted.unplaced)) (r.run definitions)

namespace Skims

variable {α β : Type} {φ : α → α} {ψ : β → β}

theorem pure {a a' : α} (h : a' = φ a) : Skims φ (Pure.pure a) (Pure.pure a') := by
  intro definitions
  rw [h]
  rfl

theorem bind {r r' : Reading α} {f f' : α → Reading β} (hr : Skims φ r r')
    (hf : ∀ a, Skims ψ (f a) (f' (φ a))) : Skims ψ (r >>= f) (r' >>= f') := by
  intro definitions
  rw [StateT.run_bind, StateT.run_bind, hr definitions]
  cases r.run definitions with
  | error error => rfl
  | ok result => exact hf result.1 result.2

theorem lift {x x' : Except DraftError α} (h : x' = readUnplaced φ x) :
    Skims φ (liftM x) (liftM x') := by
  intro definitions
  rw [h]
  cases x <;> rfl

/-- What is read without definitions has no place. -/
theorem after {x x' : Except DraftError α} {f f' : α → Reading β} (h : x' = readUnplaced id x)
    (hf : ∀ a, Skims ψ (f a) (f' a)) : Skims ψ (liftM x >>= f) (liftM x' >>= f') :=
  bind (φ := id) (lift h) hf

theorem addDefinition {scope : Scope} {definition definition' : Definition}
    (h : definition' = definition.unplaced) :
    Skims id (SchemaFamily.addDefinition scope definition)
      (SchemaFamily.addDefinition scope definition') := by
  intro definitions
  show Except.ok (Handle.ofIndex (definitions.map Drafted.unplaced).length, _) =
    Except.ok (Handle.ofIndex definitions.length, _)
  rw [List.length_map, List.map_append, h]
  rfl

end Skims

section

variable {known : Lexicon}

theorem skims_occurrence (h : Remarked known) {u u' : Usage} (hu : u.unplaced = u') (e : Element) :
    Skims Usage.unplaced (liftM (occurrence u e)) (liftM (occurrence u' (e.skim known))) :=
  .lift (hu ▸ occurrence_skim e h u)

/-! ## Flags -/

theorem documented_flag (tag : Tag) : Documented (Context.flag.lexicon tag) :=
  ⟨⟨rfl, rfl⟩, rfl, rfl⟩

theorem valued_flag (tag : Tag) : Valued (Context.flag.lexicon tag) := ⟨rfl, rfl⟩

theorem valued_flagUsage (tag : Tag) : Valued (Context.flagUsage.lexicon tag) := ⟨rfl, rfl⟩

theorem skims_defineFlag (scope : Scope) (e : Element) :
    Skims id (defineFlag scope e) (defineFlag scope (Part.take (.within .flag) e)) := by
  unfold defineFlag
  refine .after (required_skim e "name") fun name => ?_
  refine .after (datatype?_skim e) fun datatype => .addDefinition ?_
  rw [Part.take, metadataOf_skim e (documented_flag _), allowedValues_skim e (valued_flag _)]
  rfl

theorem skims_flagUsage (e : Element) :
    Skims Usage.unplaced (flagUsage e) (flagUsage (Part.take (.within .flagUsage) e)) := by
  have hvalues : flagValues (Part.take (.within .flagUsage) e) = flagValues e :=
    flagValues_skim e (valued_flagUsage _) rfl
  unfold flagUsage
  rw [hvalues, Part.take, Element.attribute?_skim, Element.attribute?_skim]
  cases href : e.attribute? "ref" with
  | some name =>
    have hremarked : Remarked (Context.flagUsage.lexicon e.tag) := by
      have htag : (e.tag.attributes.lookup "ref").isSome = true := by
        rw [← Element.attribute?, href]
        rfl
      constructor <;> rw [Context.lexicon, htag] <;> rfl
    refine .bind (skims_occurrence hremarked rfl e) fun u => ?_
    exact .after (datatype?_skim e) fun datatype => .pure rfl
  | none =>
    have hdocumented : Documented (Context.flagUsage.lexicon e.tag) := by
      have htag : (e.tag.attributes.lookup "ref").isSome = false := by
        rw [← Element.attribute?, href]
        rfl
      constructor <;> try constructor
      all_goals rw [Context.lexicon, htag]; rfl
    cases e.attribute? "name" with
    | none => exact .lift (failAt_skim e _ .unnamedFlag)
    | some name =>
      refine .after (datatype?_skim e) fun datatype => ?_
      refine .bind (.addDefinition ?_) fun id => skims_occurrence hdocumented.toRemarked rfl e
      rw [metadataOf_skim e hdocumented]
      rfl

/-- Flags are looked for among the elements that are kept. -/
theorem skims_flagUsages (h : Flagged known) (es : List Element) :
    Skims (List.map Usage.unplaced) (flagUsages es) (flagUsages (es.filterMap known.keep?)) := by
  induction es with
  | nil => exact .pure rfl
  | cons e later ih =>
    rw [List.filterMap_cons, Lexicon.keep?]
    cases hpart : known.lookup e.name with
    | none =>
      rw [flagUsages]
      split
      · next hname => rw [hname, h.flag] at hpart; cases hpart
      · next hname => rw [hname, h.defined] at hpart; cases hpart
      · exact ih
    | some part =>
      show Skims _ _ (flagUsages (part.take e :: later.filterMap known.keep?))
      rw [flagUsages, flagUsages, Part.name_take]
      split
      · next hname =>
        rw [hname, h.flag] at hpart
        cases hpart
        exact .bind (skims_flagUsage e) fun u => .bind ih fun us => .pure rfl
      · next hname =>
        rw [hname, h.defined] at hpart
        cases hpart
        refine .bind (skims_defineFlag .inline e) fun id => ?_
        refine .bind (skims_occurrence (documented_flag _).toRemarked rfl e) fun u => ?_
        exact .bind ih fun us => .pure rfl
      · exact ih

/-! ## Fields and assemblies -/

theorem documented_field (scope : Scope) (tag : Tag) :
    Documented ((Context.field scope).lexicon tag) := ⟨⟨rfl, rfl⟩, rfl, rfl⟩

theorem flagged_field (scope : Scope) (tag : Tag) :
    Flagged ((Context.field scope).lexicon tag) := ⟨rfl, rfl, rfl⟩

theorem documented_assembly (scope : Scope) (tag : Tag) :
    Documented ((Context.assembly scope).lexicon tag) := ⟨⟨rfl, rfl⟩, rfl, rfl⟩

theorem flagged_assembly (scope : Scope) (tag : Tag) :
    Flagged ((Context.assembly scope).lexicon tag) := ⟨rfl, rfl, rfl⟩

theorem skims_defineField (scope : Scope) (e : Element) :
    Skims id (defineField scope e) (defineField scope (Part.take (.within (.field scope)) e)) := by
  unfold defineField
  rw [Part.take, Element.elements_skim]
  refine .after (required_skim e "name") fun name => ?_
  refine .bind (skims_flagUsages (flagged_field _ _) e.elements) fun flags => ?_
  refine .after (datatype?_skim e) fun datatype => .addDefinition ?_
  have hkey : (e.skim ((Context.field scope).lexicon e.tag)).child? "json-value-key" =
      (e.child? "json-value-key").map (Part.take .whole) := Element.child?_skim e rfl
  rw [metadataOf_skim e (documented_field _ _), jsonKeyOf_skim e (flagged_field _ _).key, hkey]
  cases e.child? "json-value-key" with
  | none => rfl
  | some key =>
    have htext : (Part.take .whole key).text = key.text := text_unplaced key
    simp only [Option.map_some, htext, Option.bind_some]
    rfl

theorem skims_defineAssembly (scope : Scope) (e : Element)
    {model model' : Reading (List ModelItem)}
    (hm : Skims (List.map (ModelItem.mapUsages Usage.unplaced)) model model') :
    Skims id (defineAssembly scope e model)
      (defineAssembly scope (Part.take (.within (.assembly scope)) e) model') := by
  unfold defineAssembly
  rw [Part.take, Element.elements_skim]
  refine .after (required_skim e "name") fun name => ?_
  refine .bind (skims_flagUsages (flagged_assembly _ _) e.elements) fun flags => ?_
  refine .bind hm fun items => .addDefinition ?_
  rw [metadataOf_skim e (documented_assembly _ _), jsonKeyOf_skim e (flagged_assembly _ _).key,
    childText?_skim e (rfl : ((Context.assembly scope).lexicon e.tag).lookup "root-name" = _)]
  rfl

/-! ## Models -/

section

variable {e : Element} (model : Reading (List ModelItem))

theorem modelTarget?_assembly (h : e.name = "assembly") : modelTarget? e model =
    some (do return .reference .assembly (← required e "ref")) := by
  rw [modelTarget?, h]
  rfl

theorem modelTarget?_field (h : e.name = "field") : modelTarget? e model =
    some (do return .reference .field (← required e "ref")) := by
  rw [modelTarget?, h]
  rfl

theorem modelTarget?_defineAssembly (h : e.name = "define-assembly") : modelTarget? e model =
    some (do return .inline .assembly (← defineAssembly .inline e model)) := by
  rw [modelTarget?, h]
  rfl

theorem modelTarget?_defineField (h : e.name = "define-field") : modelTarget? e model =
    some (do return .inline .field (← defineField .inline e)) := by
  rw [modelTarget?, h]
  rfl

/-- What is not looked for as a member of a choice is none. -/
theorem modelTarget?_eq_none (h : members.lookup e.name = none) : modelTarget? e model = none := by
  have hne {name : String} {part : Part} (hname : members.lookup name = some part) :
      e.name ≠ name := by
    rintro rfl
    cases h.symm.trans hname
  rw [modelTarget?]
  split
  · next heq => exact absurd heq (hne rfl)
  · next heq => exact absurd heq (hne rfl)
  · next heq => exact absurd heq (hne rfl)
  · next heq => exact absurd heq (hne rfl)
  · rfl

end

/-- A child is no entry and is not looked for, or it is read in a context of its own as one. -/
theorem skims_modelTarget (e : Element)
    (hm : Skims (List.map (ModelItem.mapUsages Usage.unplaced)) (modelOf e.children)
      (modelOf (Part.take (.within (.assembly .inline)) e).children)) :
    (members.lookup e.name = none ∧ ∀ model, modelTarget? e model = none) ∨
      ∃ context target target', members.lookup e.name = some (.within context) ∧
        Used (context.lexicon e.tag) ∧ modelTarget? e (modelOf e.children) = some target ∧
        modelTarget? (Part.take (.within context) e)
          (modelOf (Part.take (.within context) e).children) = some target' ∧
        Skims Usage.unplaced target target' := by
  by_cases hassembly : e.name = "assembly"
  · refine .inr ⟨.usage, _, _, by rw [hassembly]; rfl, ⟨⟨rfl, rfl⟩, rfl⟩,
      modelTarget?_assembly _ hassembly, modelTarget?_assembly _ hassembly, ?_⟩
    exact .after (required_skim e "ref") fun name => .pure rfl
  by_cases hfield : e.name = "field"
  · refine .inr ⟨.usage, _, _, by rw [hfield]; rfl, ⟨⟨rfl, rfl⟩, rfl⟩,
      modelTarget?_field _ hfield, modelTarget?_field _ hfield, ?_⟩
    exact .after (required_skim e "ref") fun name => .pure rfl
  by_cases hdefineAssembly : e.name = "define-assembly"
  · refine .inr ⟨.assembly .inline, _, _, by rw [hdefineAssembly]; rfl, ⟨⟨rfl, rfl⟩, rfl⟩,
      modelTarget?_defineAssembly _ hdefineAssembly,
      modelTarget?_defineAssembly _ hdefineAssembly, ?_⟩
    exact .bind (skims_defineAssembly .inline e hm) fun id => .pure rfl
  by_cases hdefineField : e.name = "define-field"
  · refine .inr ⟨.field .inline, _, _, by rw [hdefineField]; rfl, ⟨⟨rfl, rfl⟩, rfl⟩,
      modelTarget?_defineField _ hdefineField, modelTarget?_defineField _ hdefineField, ?_⟩
    exact .bind (skims_defineField .inline e) fun id => .pure rfl
  · have hnone : members.lookup e.name = none := by
      rw [List.lookup_eq_none_iff]
      simp [members, hassembly, hfield, hdefineAssembly, hdefineField]
    exact .inl ⟨hnone, fun model => modelTarget?_eq_none model hnone⟩

theorem skims_wrapping (e : Element) (u : Usage) :
    Skims Usage.unplaced
      (do
        if u.kind = .field then
          match ← keyword? e "in-xml" FieldWrapping.ofKeyword with
          | some inXml => return { u with inXml }
          | none => return u
        else return u)
      (do
        if u.unplaced.kind = .field then
          match ← keyword? (e.skim known) "in-xml" FieldWrapping.ofKeyword with
          | some inXml => return { u.unplaced with inXml }
          | none => return u.unplaced
        else return u.unplaced) := by
  show Skims _ (if u.kind = .field then _ else _) (if u.kind = .field then _ else _)
  split
  · refine .after (keyword?_skim e "in-xml" _) fun wrapping => ?_
    cases wrapping <;> exact .pure rfl
  · exact .pure rfl

theorem skims_modelUsage (h : Used known) {e : Element} {target target' : Reading Usage}
    (ht : Skims Usage.unplaced target target') :
    Skims Usage.unplaced (modelUsage e target) (modelUsage (e.skim known) target') := by
  unfold modelUsage
  refine .bind ht fun u => ?_
  refine .bind (skims_occurrence h.toRemarked rfl e) fun u => ?_
  rw [Element.child?_skim e h.group]
  cases e.child? "group-as" with
  | some group =>
    refine .after (groupOf_skim group) fun g => ?_
    exact .bind (φ := Usage.unplaced) (.pure rfl) fun u => skims_wrapping e u
  | none => exact .bind (φ := Usage.unplaced) (.pure rfl) fun u => skims_wrapping e u

end

/-- What is kept of a child that is looked through. -/
theorem skim_within (known : Lexicon) {tag : Tag} {context : Context}
    (h : known.lookup tag.name = some (.within context)) (children : List Node) :
    (Node.element tag children).skim known =
      [(Part.take (.within context) ⟨tag, children⟩).toNode] := by
  rw [Node.skim, h]
  rfl

theorem skim_unknown (known : Lexicon) {tag : Tag} (h : known.lookup tag.name = none)
    (children : List Node) : (Node.element tag children).skim known = [] := by
  rw [Node.skim, h]

section

variable {e : Element}

theorem modelItem_choice (h : e.name = "choice") :
    modelItem e.toNode = do return some (.choice (← choiceMembers e.children)) := by
  rw [Element.toNode, modelItem, ← Element.name, h]
  rfl

theorem modelItem_prose (h : e.name = "prose") : modelItem e.toNode = pure (some .prose) := by
  rw [Element.toNode, modelItem, ← Element.name, h]
  rfl

theorem modelItem_any (h : e.name = "any") : modelItem e.toNode = pure (some .any) := by
  rw [Element.toNode, modelItem, ← Element.name, h]
  rfl

theorem modelItem_usage {target : Reading Usage}
    (h : modelTarget? e (modelOf e.children) = some target) :
    modelItem e.toNode = do return some (.usage (← modelUsage e target)) := by
  have hmember : members.lookup e.name ≠ none := fun hnone => by
    rw [modelTarget?_eq_none _ hnone] at h
    cases h
  rw [Element.toNode, modelItem, ← Element.name]
  split
  · next hname => exact absurd (by rw [hname]; rfl) hmember
  · next hname => exact absurd (by rw [hname]; rfl) hmember
  · next hname => exact absurd (by rw [hname]; rfl) hmember
  · rw [h]

end

/-- At most one element of the same name is kept of an element. -/
theorem skim_cases (known : Lexicon) (tag : Tag) (children : List Node) :
    (Node.element tag children).skim known = [] ∨
      ∃ children', (Node.element tag children).skim known =
        [.element { tag with position := .unknown } children'] := by
  rw [Node.skim]
  split
  · exact .inl rfl
  · exact .inr ⟨_, rfl⟩
  · exact .inr ⟨_, rfl⟩

theorem lookup_model_eq_none {name : String} (tag : Tag) (hmembers : members.lookup name = none)
    (hchoice : name ≠ "choice") (hprose : name ≠ "prose") (hany : name ≠ "any") :
    (Context.model.lexicon tag).lookup name = none := by
  rw [Context.lexicon, List.lookup_append, hmembers, Option.none_or, List.lookup_eq_none_iff]
  simp [hchoice, hprose, hany]

theorem lookup_model_of_members {name : String} {part : Part} (tag : Tag)
    (h : members.lookup name = some part) :
    (Context.model.lexicon tag).lookup name = some part := by
  rw [Context.lexicon, List.lookup_append, h, Option.some_or]

mutual

theorem skims_modelOf (scope : Scope) (tag : Tag) : ∀ nodes : List Node,
    Skims (List.map (ModelItem.mapUsages Usage.unplaced)) (modelOf nodes)
      (modelOf (Node.skimAll ((Context.assembly scope).lexicon tag) nodes))
  | [] => .pure rfl
  | .text _ :: later => by
    rw [modelOf]
    exact skims_modelOf scope tag later
  | .element inner children :: later => by
    rw [modelOf, Node.skimAll]
    split
    · next hname =>
      have hmodel : ((Context.assembly scope).lexicon tag).lookup inner.name =
        some (.within .model) := by rw [hname]; rfl
      rw [skim_within _ hmodel, List.singleton_append, Element.toNode, modelOf]
      exact (if_pos hname : (if _ then _ else _) = _) ▸ skims_modelItems inner children
    · next hname =>
      have hlater := skims_modelOf scope tag later
      rcases skim_cases ((Context.assembly scope).lexicon tag) inner children with
        hskim | ⟨children', hskim⟩
      · rw [hskim]
        exact hlater
      · rw [hskim, List.singleton_append, modelOf]
        exact (if_neg hname : (if _ then _ else _) = _) ▸ hlater

theorem skims_modelItems (tag : Tag) : ∀ nodes : List Node,
    Skims (List.map (ModelItem.mapUsages Usage.unplaced)) (modelItems nodes)
      (modelItems (Node.skimAll (Context.model.lexicon tag) nodes))
  | [] => .pure rfl
  | node :: later => by
    have hlater := skims_modelItems tag later
    rw [Node.skimAll, modelItems]
    rcases skims_modelItem tag node with ⟨hskim, hnone⟩ | ⟨node', hskim, hitem⟩
    · rw [hskim, hnone, pure_bind]
      show Skims _ (modelItems later >>= fun items => pure ([] ++ items)) _
      simpa using hlater
    · rw [hskim, List.singleton_append, modelItems]
      refine .bind hitem fun item => .bind hlater fun items => .pure ?_
      cases item <;> simp

/-- A child that makes no entry is not kept, and one that makes one is kept and makes it. -/
theorem skims_modelItem (tag : Tag) : ∀ node : Node,
    (node.skim (Context.model.lexicon tag) = [] ∧ modelItem node = pure none) ∨
      ∃ node', node.skim (Context.model.lexicon tag) = [node'] ∧
        Skims (Option.map (ModelItem.mapUsages Usage.unplaced)) (modelItem node) (modelItem node')
  | .text _ => .inl ⟨rfl, by rw [modelItem]⟩
  | .element inner children => by
    by_cases hchoice : inner.name = "choice"
    · have hknown : (Context.model.lexicon tag).lookup inner.name =
        some (.within .choice) := by rw [hchoice]; rfl
      refine .inr ⟨_, skim_within _ hknown children, ?_⟩
      show Skims _ (modelItem (Element.toNode ⟨inner, children⟩)) _
      rw [modelItem_choice (e := ⟨inner, children⟩) hchoice,
        modelItem_choice ((Part.name_take _ ⟨inner, children⟩).trans hchoice)]
      exact .bind (skims_choiceMembers inner children) fun members => .pure rfl
    by_cases hprose : inner.name = "prose"
    · have hknown : (Context.model.lexicon tag).lookup inner.name =
        some (.within .closed) := by rw [hprose]; rfl
      refine .inr ⟨_, skim_within _ hknown children, ?_⟩
      show Skims _ (modelItem (Element.toNode ⟨inner, children⟩)) _
      rw [modelItem_prose (e := ⟨inner, children⟩) hprose,
        modelItem_prose ((Part.name_take _ ⟨inner, children⟩).trans hprose)]
      exact .pure rfl
    by_cases hany : inner.name = "any"
    · have hknown : (Context.model.lexicon tag).lookup inner.name =
        some (.within .closed) := by rw [hany]; rfl
      refine .inr ⟨_, skim_within _ hknown children, ?_⟩
      show Skims _ (modelItem (Element.toNode ⟨inner, children⟩)) _
      rw [modelItem_any (e := ⟨inner, children⟩) hany,
        modelItem_any ((Part.name_take _ ⟨inner, children⟩).trans hany)]
      exact .pure rfl
    rcases skims_modelTarget ⟨inner, children⟩ (skims_modelOf .inline inner children) with
      ⟨hmembers, hnone⟩ | ⟨context, target, target', hmembers, hused, htarget, htarget', hskims⟩
    · have hunknown := lookup_model_eq_none tag hmembers hchoice hprose hany
      refine .inl ⟨skim_unknown _ hunknown children, ?_⟩
      rw [modelItem, hnone]
      split <;> first | contradiction | rfl
    · refine .inr ⟨_, skim_within _ (lookup_model_of_members tag hmembers) children, ?_⟩
      show Skims _ (modelItem (Element.toNode ⟨inner, children⟩)) _
      rw [modelItem_usage htarget, modelItem_usage htarget']
      exact .bind (skims_modelUsage hused hskims) fun u => .pure rfl

theorem skims_choiceMembers (tag : Tag) : ∀ nodes : List Node,
    Skims (List.map Usage.unplaced) (choiceMembers nodes)
      (choiceMembers (Node.skimAll (Context.choice.lexicon tag) nodes))
  | [] => .pure rfl
  | .text _ :: later => by
    rw [choiceMembers]
    exact skims_choiceMembers tag later
  | .element inner children :: later => by
    have hlater := skims_choiceMembers tag later
    rw [Node.skimAll, choiceMembers]
    rcases skims_modelTarget ⟨inner, children⟩ (skims_modelOf .inline inner children) with
      ⟨hmembers, hnone⟩ | ⟨context, target, target', hmembers, hused, htarget, htarget', hskims⟩
    · rw [hnone, skim_unknown (Context.choice.lexicon tag) hmembers]
      exact hlater
    · rw [htarget, skim_within (Context.choice.lexicon tag) hmembers,
        List.singleton_append, Element.toNode, choiceMembers]
      dsimp only
      rw [htarget']
      exact .bind (skims_modelUsage hused hskims) fun u => .bind hlater fun us => .pure rfl

end

/-! ## Documents -/

theorem skims_readBody (tag : Tag) (es : List Element) :
    Skims (List.map Import.unplaced) (readBody es)
      (readBody (es.filterMap (Lexicon.keep? (Context.document.lexicon tag)))) := by
  induction es with
  | nil => exact .pure rfl
  | cons e later ih =>
    rw [List.filterMap_cons, Lexicon.keep?]
    cases hpart : (Context.document.lexicon tag).lookup e.name with
    | none =>
      have hne {name : String} {part : Part}
          (hname : (Context.document.lexicon tag).lookup name = some part) :
          e.name ≠ name := by
        rintro rfl
        cases hpart.symm.trans hname
      rw [readBody]
      split
      · next hname => exact absurd hname (hne rfl)
      · next hname => exact absurd hname (hne rfl)
      · next hname => exact absurd hname (hne rfl)
      · next hname => exact absurd hname (hne rfl)
      · exact ih
    | some part =>
      show Skims _ _ (readBody (part.take e :: _))
      rw [readBody, readBody, Part.name_take]
      split
      · next hname =>
        rw [hname] at hpart
        cases hpart
        refine .after (required_skim e "href") fun href => ?_
        exact .bind ih fun imports => .pure rfl
      · next hname =>
        rw [hname] at hpart
        cases hpart
        have hmodel := skims_modelOf .everywhere e.tag e.children
        exact .bind (skims_defineAssembly .everywhere e hmodel) fun _ => ih
      · next hname =>
        rw [hname] at hpart
        cases hpart
        exact .bind (skims_defineField .everywhere e) fun _ => ih
      · next hname =>
        rw [hname] at hpart
        cases hpart
        exact .bind (skims_defineFlag .everywhere e) fun _ => ih
      · exact ih

theorem headerOf_skim (path : Path) (root : Element) :
    headerOf path (root.skim (Context.document.lexicon root.tag)) =
      readUnplaced id (headerOf path root) := by
  have htext {name : String} (h : (Context.document.lexicon root.tag).lookup name =
      some .whole) := childText?_skim root h
  rw [headerOf, headerOf, yesOrNo_skim, htext rfl, htext rfl, htext rfl, htext rfl,
    childProse?_skim root rfl]
  cases yesOrNo root "abstract" <;> rfl

/-- The draft of a skimmed element is that of the element without places, and it is refused with
    the same error, but for the line. -/
theorem Draft.ofElement_skim (path : Path) (root : Element) :
    Draft.ofElement path (root.skim (Context.document.lexicon root.tag)) =
      readUnplaced Draft.unplaced (Draft.ofElement path root) := by
  rw [ofElement, ofElement, Element.name_skim, headerOf_skim, Element.elements_skim]
  split
  · rfl
  · cases headerOf path root with
    | error error => rfl
    | ok header =>
      have hbody := skims_readBody root.tag root.elements []
      rw [List.map_nil] at hbody
      show StateT.run (readBody _) [] >>= _ = readUnplaced _ ((readBody root.elements).run [] >>= _)
      rw [hbody]
      cases (readBody root.elements).run [] with
      | error error => rfl
      | ok result => rfl

/-- An element of a name that is not looked for where it stands changes nothing, whatever it holds:
    with it a document has the same draft, or is refused with the same error, however the places of
    all elements change. -/
theorem read_of_inserted (path : Path) {root root' : Element} {nodes : List Node}
    (hinserted : Inserted (Context.document.lexicon root.tag) root.children nodes)
    (hplaces : root'.unplaced = Element.unplaced ⟨root.tag, nodes⟩) :
    readUnplaced Draft.unplaced (Draft.ofElement path root') =
      readUnplaced Draft.unplaced (Draft.ofElement path root) := by
  have hskim : root'.skim (Context.document.lexicon root'.tag) =
      root.skim (Context.document.lexicon root.tag) := by
    rw [← Element.skim_unplaced, hplaces, Element.skim_unplaced]
    exact congrArg (Element.mk _) (skimAll_inserted hinserted).symm
  rw [← Draft.ofElement_skim, ← Draft.ofElement_skim, hskim]

/-- An assembly with a field in its model, and the field. -/
def plainRoot : Element :=
  ⟨⟨"METASCHEMA", [], ⟨1, 1⟩⟩,
    [.element ⟨"define-assembly", [("name", "a")], ⟨1, 13⟩⟩
      [.element ⟨"model", [], ⟨1, 39⟩⟩ [.element ⟨"field", [("ref", "f")], ⟨1, 46⟩⟩ []]],
     .element ⟨"define-field", [("name", "f")], ⟨1, 89⟩⟩ []]⟩

/-- What a note holds: the definition of a flag, and a reference to one without a name. -/
def noteContent : List Node :=
  [.element ⟨"define-flag", [("name", "g")], ⟨2, 7⟩⟩ [],
   .element ⟨"flag", [("ref", "")], ⟨2, 30⟩⟩ []]

/-- The same with a note in the model, on three lines. -/
def notedRoot : Element :=
  ⟨⟨"METASCHEMA", [], ⟨1, 1⟩⟩,
    [.element ⟨"define-assembly", [("name", "a")], ⟨1, 13⟩⟩
      [.element ⟨"model", [], ⟨1, 39⟩⟩
        [.element ⟨"note", [], ⟨2, 1⟩⟩ noteContent,
         .element ⟨"field", [("ref", "f")], ⟨3, 1⟩⟩ []]],
     .element ⟨"define-field", [("name", "f")], ⟨3, 44⟩⟩ []]⟩

theorem read_notedModel :
    ∃ nodes, Inserted (Context.document.lexicon plainRoot.tag) plainRoot.children nodes ∧
      notedRoot.unplaced = Element.unplaced ⟨plainRoot.tag, nodes⟩ ∧
      readUnplaced Draft.unplaced (Draft.ofElement ⟨"a.xml"⟩ notedRoot) =
        readUnplaced Draft.unplaced (Draft.ofElement ⟨"a.xml"⟩ plainRoot) ∧
      (Draft.ofElement ⟨"a.xml"⟩ notedRoot).toOption.map (·.definitions.length) = some 2 := by
  have hnote : Inserted (Context.model.lexicon ⟨"model", [], ⟨1, 39⟩⟩)
      [.element ⟨"field", [("ref", "f")], ⟨1, 46⟩⟩ []]
      [.element ⟨"note", [], ⟨2, 1⟩⟩ noteContent, .element ⟨"field", [("ref", "f")], ⟨1, 46⟩⟩ []] :=
    .here [] noteContent _ rfl
  have hinserted : Inserted (Context.document.lexicon plainRoot.tag) plainRoot.children _ :=
    .inside [] _ rfl (.inside [] [] rfl hnote)
  exact ⟨_, hinserted, rfl, read_of_inserted ⟨"a.xml"⟩ hinserted rfl, by decide +kernel⟩

end SchemaFamily
