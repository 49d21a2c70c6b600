import SchemaFamily.Draft.Basic
import SchemaFamily.Draft.Prose
import SchemaFamily.Xml.Tree

/-
  Reading a draft from an element tree. The children of the root are read in order; a definition
  is added once everything inside it has been read, so the handle of an inline definition is
  smaller than that of the definition that uses it. Elements that the notation does not know are
  passed over. The first thing wrong decides, told with the element and its line.
-/

namespace SchemaFamily

open Xml

/-- Why an element cannot be read. -/
inductive DraftFault where
  | xml (fault : Xml.Fault)
  | wrongRoot
  | missing (key : String)
  | unnamedFlag
  | notYesOrNo (key value : String)
  | keyword (key value : String) (fault : KeywordFault)
  | number (key value : String) (fault : NumberFault)
deriving DecidableEq, Repr

/-- The name of the root element of every document. -/
def rootElementName : String := "METASCHEMA"

/-- The wording of a fault. -/
def DraftFault.message : DraftFault → String
  | .xml fault => fault.message
  | .wrongRoot => s!"root element must be <{rootElementName}>"
  | .missing key => s!"missing '{key}' attribute"
  | .unnamedFlag => "flag usage needs a 'ref' or 'name' attribute"
  | .notYesOrNo key value => s!"{key}=\"{value}\": expected 'yes' or 'no'"
  | .keyword key value fault => s!"{key}=\"{value}\": {fault.message}"
  | .number key value fault => s!"{key}=\"{value}\": {fault.message}"

/-- A fault with the element and the line that it is told with. -/
structure DraftError where
  element : String
  line : Nat
  fault : DraftFault
deriving DecidableEq, Repr

/-- Reading with the definitions added so far. -/
abbrev Reading := StateT (List Drafted) (Except DraftError)

/-- Fails at an element. -/
def failAt {α : Type} (e : Element) (fault : DraftFault) : Except DraftError α :=
  .error ⟨e.name, e.position.line, fault⟩

/-- Adds a definition; its handle is its place among those of the draft. -/
def addDefinition (scope : Scope) (definition : Definition) : Reading DeclarationId :=
  modifyGet fun definitions => (.ofIndex definitions.length, definitions ++ [⟨scope, definition⟩])

/-! ## Attributes -/

/-- The value of an attribute that must not be blank. -/
def required (e : Element) (key : String) : Except DraftError String :=
  match e.attribute? key with
  | some value => if hasInk value then .ok value else failAt e (.missing key)
  | none => failAt e (.missing key)

/-- The value of an attribute that is `yes` or `no`, and `no` when it is not there. -/
def yesOrNo (e : Element) (key : String) : Except DraftError Bool :=
  match e.attribute? key with
  | none => .ok false
  | some "no" => .ok false
  | some "yes" => .ok true
  | some other => failAt e (.notYesOrNo key other)

/-- The keyword in an attribute, blanks around it ignored. -/
def keyword? {α : Type} (e : Element) (key : String)
    (ofKeyword : String → Except KeywordFault α) : Except DraftError (Option α) :=
  match e.attribute? key with
  | none => .ok none
  | some value =>
    match ofKeyword (String.ofList (trimBlanks value.toList)) with
    | .ok a => .ok (some a)
    | .error fault => failAt e (.keyword key value fault)

/-- The 32-bit number in an attribute, blanks around it ignored. -/
def number? (e : Element) (key : String) : Except DraftError (Option Nat) :=
  match e.attribute? key with
  | none => .ok none
  | some value =>
    match readUnsigned 10 maxWord32 (trimBlanks value.toList) with
    | .ok n => .ok (some n)
    | .error fault => failAt e (.number key value fault)

/-- The datatype that an element names. -/
def datatype? (e : Element) : Except DraftError (Option Datatype) :=
  keyword? e "as-type" Datatype.ofKeyword

/-! ## Documentation and values -/

/-- The prose of the first child of a name. -/
def childProse? (e : Element) (name : String) : Option String := (e.child? name).bind prose?

/-- An example: its own text and that of its elements, its documentation apart. -/
def exampleOf (e : Element) : Example where
  href := e.attribute? "href"
  path := e.attribute? "path"
  description := childProse? e "description"
  remarks := childProse? e "remarks"
  content := normalizeSpace <| String.join <| e.children.map fun
    | .text content => content
    | .element tag children =>
      if tag.name = "description" ∨ tag.name = "remarks" then ""
      else " " ++ Element.text ⟨tag, children⟩

/-- What an element says about its definition. -/
def metadataOf (e : Element) : Metadata where
  formalName := e.childText? "formal-name"
  description := childProse? e "description"
  remarks := childProse? e "remarks"
  examples := (e.childrenNamed "example").map exampleOf
  position := e.position

/-- The values that an element allows, those of its constraints last. -/
def allowedValues (e : Element) : List String :=
  let lists := e.childrenNamed "allowed-values" ++
    (e.childrenNamed "constraint").flatMap (·.childrenNamed "allowed-values")
  (lists.flatMap (·.childrenNamed "enum")).map fun v => (v.attribute? "value").getD v.text

/-- The values that an element that stands for a flag allows. -/
def flagValues (e : Element) : List String :=
  (e.childrenNamed "value").map Element.text ++ allowedValues e

/-- The flag that keys the values of a definition. -/
def jsonKeyOf (e : Element) : Option String :=
  (e.child? "json-key").bind (·.attribute? "flag-name")

/-! ## Usages -/

/-- A usage with what its element says about its occurrence. -/
def occurrence (u : Usage) (e : Element) : Except DraftError Usage := do
  let minOccurs := (← number? e "min-occurs").getD 0
  let required ← yesOrNo e "required"
  let maxOccurs ← keyword? e "max-occurs" MaxOccurs.ofKeyword
  return { u with
    required := required || 1 ≤ minOccurs
    minOccurs
    maxOccurs := maxOccurs.getD u.maxOccurs
    description := childProse? e "description"
    remarks := childProse? e "remarks"
    position := e.position }

/-- The group that an element describes. -/
def groupOf (e : Element) : Except DraftError GroupAs := do
  let name ← required e "name"
  let inJson ← keyword? e "in-json" JsonGrouping.ofKeyword
  let inXml ← keyword? e "in-xml" XmlGrouping.ofKeyword
  return ⟨name, inJson.getD default, inXml.getD default⟩

/-- Defines a flag. -/
def defineFlag (scope : Scope) (e : Element) : Reading DeclarationId := do
  let name ← required e "name"
  let datatype ← datatype? e
  addDefinition scope ⟨name, metadataOf e, .flag ⟨datatype.getD default, allowedValues e⟩⟩

/-- A usage of a flag: by reference, or of a flag that is defined in place. -/
def flagUsage (e : Element) : Reading Usage := do
  match e.attribute? "ref" with
  | some name =>
    let u ← occurrence (.reference .flag name) e
    return { u with datatype := ← datatype? e, allowedValues := flagValues e }
  | none =>
    match e.attribute? "name" with
    | none => failAt e .unnamedFlag
    | some name =>
      let datatype ← datatype? e
      let id ← addDefinition .inline
        ⟨name, metadataOf e, .flag ⟨datatype.getD default, flagValues e⟩⟩
      occurrence (.inline .flag id) e

/-- The usages of flags among some elements, in order. -/
def flagUsages : List Element → Reading (List Usage)
  | [] => return []
  | e :: later => do
    match e.name with
    | "flag" => return (← flagUsage e) :: (← flagUsages later)
    | "define-flag" =>
      let id ← defineFlag .inline e
      let u ← occurrence (.inline .flag id) e
      return u :: (← flagUsages later)
    | _ => flagUsages later

/-- Defines a field. -/
def defineField (scope : Scope) (e : Element) : Reading DeclarationId := do
  let name ← required e "name"
  let flags ← flagUsages e.elements
  let datatype ← datatype? e
  let valueKey := e.child? "json-value-key"
  addDefinition scope ⟨name, metadataOf e, .field
    { flags
      datatype := datatype.getD default
      jsonKey := jsonKeyOf e
      jsonValueKey := (valueKey.map Element.text).filter (· != "")
      jsonValueKeyFlag := valueKey.bind (·.attribute? "flag-name") }⟩

/-- Defines an assembly, its model read by `model`. -/
def defineAssembly (scope : Scope) (e : Element) (model : Reading (List ModelItem)) :
    Reading DeclarationId := do
  let name ← required e "name"
  let flags ← flagUsages e.elements
  let model ← model
  addDefinition scope ⟨name, metadataOf e, .assembly
    { flags
      model
      jsonKey := jsonKeyOf e
      rootName := e.childText? "root-name"
      address := e.attribute? "address" }⟩

/-- What an entry of a model uses, if its element is one; the model of an assembly that is defined
    in place is read by `model`. -/
def modelTarget? (e : Element) (model : Reading (List ModelItem)) : Option (Reading Usage) :=
  match e.name with
  | "assembly" => some do return .reference .assembly (← required e "ref")
  | "field" => some do return .reference .field (← required e "ref")
  | "define-assembly" => some do return .inline .assembly (← defineAssembly .inline e model)
  | "define-field" => some do return .inline .field (← defineField .inline e)
  | _ => none

/-- A usage of what `target` reads, with what its element says about it. -/
def modelUsage (e : Element) (target : Reading Usage) : Reading Usage := do
  let u ← occurrence (← target) e
  let u ← match e.child? "group-as" with
    | some group => do
      let g ← groupOf group
      pure { u with groupAs := some g }
    | none => pure u
  if u.kind = .field then
    match ← keyword? e "in-xml" FieldWrapping.ofKeyword with
    | some inXml => return { u with inXml }
    | none => return u
  else return u

mutual

/-- The model of an assembly: the entries of the first child that is one. -/
def modelOf : List Node → Reading (List ModelItem)
  | [] => return []
  | .text _ :: later => modelOf later
  | .element tag children :: later =>
    if tag.name = "model" then modelItems children else modelOf later

/-- The entries among the children of a model, in order. -/
def modelItems : List Node → Reading (List ModelItem)
  | [] => return []
  | node :: later => do
    let item ← modelItem node
    return item.toList ++ (← modelItems later)

/-- The entry that a child of a model makes, if any. -/
def modelItem : Node → Reading (Option ModelItem)
  | .text _ => return none
  | .element tag children =>
    match tag.name with
    | "choice" => do return some (.choice (← choiceMembers children))
    | "prose" => return some .prose
    | "any" => return some .any
    | _ =>
      match modelTarget? ⟨tag, children⟩ (modelOf children) with
      | some target => do return some (.usage (← modelUsage ⟨tag, children⟩ target))
      | none => return none

/-- The members of a choice, in order. -/
def choiceMembers : List Node → Reading (List Usage)
  | [] => return []
  | .text _ :: later => choiceMembers later
  | .element tag children :: later =>
    match modelTarget? ⟨tag, children⟩ (modelOf children) with
    | some target => do
      let u ← modelUsage ⟨tag, children⟩ target
      return u :: (← choiceMembers later)
    | none => choiceMembers later

end

/-! ## Documents -/

/-- The header of a document read from `path`. -/
def headerOf (path : Path) (root : Element) : Except DraftError Header := do
  let isAbstract ← yesOrNo root "abstract"
  return {
    name := (((root.childText? "short-name").or (root.attribute? "root")).or path.stem?).getD
      "schema"
    source := path
    top := root.attribute? "top"
    root := root.attribute? "root"
    schemaName := root.childText? "schema-name"
    schemaVersion := root.childText? "schema-version"
    nameSpace := root.childText? "namespace"
    remarks := childProse? root "remarks"
    isAbstract }

/-- Reads the children of the root; what they import, in order. -/
def readBody : List Element → Reading (List Import)
  | [] => return []
  | e :: later => do
    match e.name with
    | "import" =>
      let href ← required e "href"
      return ⟨href, e.position⟩ :: (← readBody later)
    | "define-assembly" =>
      let _ ← defineAssembly .everywhere e (modelOf e.children)
      readBody later
    | "define-field" =>
      let _ ← defineField .everywhere e
      readBody later
    | "define-flag" =>
      let _ ← defineFlag .everywhere e
      readBody later
    | _ => readBody later

/-- The draft of an element tree read from `path`. -/
def Draft.ofElement (path : Path) (root : Element) : Except DraftError Draft := do
  if root.name ≠ rootElementName then failAt root .wrongRoot
  else
    let header ← headerOf path root
    let (imports, definitions) ← (readBody root.elements).run []
    return ⟨header, imports, definitions⟩

/-- The draft of a text read from `path`. A fault in the markup is told with the innermost
    element, or with the root element when there is none. -/
def Draft.read (entities : EntityMap) (path : Path) (source : String) :
    Except DraftError Draft :=
  match Element.parse entities source with
  | .error m =>
    .error ⟨m.element.getD rootElementName, m.position.line, .xml m.fault⟩
  | .ok root => Draft.ofElement path root

end SchemaFamily
