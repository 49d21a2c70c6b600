import SchemaFamily.Xml.Element
import SchemaFamily.Xml.Markup
import SchemaFamily.Xml.Doctype

/-
  From pieces of markup to one element. `Nesting` holds the elements that are open, innermost
  first, each with the children it has so far; a start tag opens one more, an end tag of the same
  name closes the innermost, and what is closed becomes a child of the one around it or the root.
  A fault is told with its place and with the innermost open element, or with the element of the
  start tag at fault.
-/

namespace SchemaFamily.Xml

/-- Why a text is no element tree. -/
inductive Fault where
  | markup (fault : MarkupFault)
  | closingMismatch (expected found : String)
  | closingUnmatched (found : String)
  | attribute (fault : AttributeFault)
  | reference (fault : ReferenceFault)
  | neverClosed (name : String)
  | secondRoot (name : String)
  | noRoot
deriving DecidableEq, Repr

/-- The wording of a fault. -/
def Fault.message : Fault → String
  | .markup fault => fault.message
  | .closingMismatch expected found =>
    s!"ill-formed document: expected `</{expected}>`, but `</{found}>` was found"
  | .closingUnmatched found =>
    s!"ill-formed document: close tag `</{found}>` does not match any open tag"
  | .attribute fault => fault.message
  | .reference fault => fault.message
  | .neverClosed name => s!"element <{name}> is never closed"
  | .secondRoot name => s!"second root element <{name}>"
  | .noRoot => "document has no root element"

/-- A fault with its place and the element it is in, if any. -/
structure Malformed where
  fault : Fault
  position : Position
  element : Option String
deriving DecidableEq, Repr

/-! ## Open elements -/

/-- An element that is open: its tag, its full name as written, its children newest first. -/
structure OpenElement where
  tag : Tag
  fullName : List Char
  children : List Node
deriving Repr

/-- The element, once closed. -/
def OpenElement.close (o : OpenElement) : Element := ⟨o.tag, o.children.reverse⟩

/-- What has been read of a text: the entities known, the open elements with the innermost first,
    and the root once it is closed. -/
structure Nesting where
  entities : EntityMap
  opened : List OpenElement
  root : Option Element
deriving Repr

namespace Nesting

/-- The name of the innermost open element. -/
def innermost? (n : Nesting) : Option String := n.opened.head?.map (·.tag.name)

/-- Adds a child to the innermost open element; outside the root it is dropped. -/
def addText (n : Nesting) (content : String) : Nesting :=
  match n.opened with
  | [] => n
  | o :: outer => { n with opened := { o with children := .text content :: o.children } :: outer }

/-- Adds a closed element: a child of the innermost open element, or the root. -/
def addElement (n : Nesting) (e : Element) : Except Malformed Nesting :=
  match n.opened, n.root with
  | o :: outer, _ =>
    .ok { n with opened := { o with children := e.toNode :: o.children } :: outer }
  | [], none => .ok { n with root := some e }
  | [], some _ => .error ⟨.secondRoot e.name, e.position, none⟩

end Nesting

/-- The attributes of a tag with their values expanded; a binding of a namespace is left out with
    its value unread. -/
def expandAttributes (entities : EntityMap) : List RawAttribute →
    Except ReferenceFault (List (String × String))
  | [] => .ok []
  | ⟨key, value⟩ :: later =>
    if bindsNamespace key then expandAttributes entities later
    else
      match expand entities value with
      | .error fault => .error fault
      | .ok value =>
        match expandAttributes entities later with
        | .error fault => .error fault
        | .ok more => .ok ((String.ofList (localName key), value) :: more)

/-- The tag of a body at `position`. -/
def tagOf (entities : EntityMap) (position : Position) (body : List Char) :
    Except Malformed Tag :=
  let name := String.ofList (localName (nameOf body))
  let raw := attributesOf body
  match expandAttributes entities raw.read, raw.fault with
  | .error fault, _ => .error ⟨.reference fault, position, some name⟩
  | .ok _, some fault => .error ⟨.attribute fault, position, some name⟩
  | .ok attributes, none => .ok ⟨name, attributes, position⟩

/-- What is read after one more piece at `position`. -/
def Nesting.step (n : Nesting) (position : Position) : Markup → Except Malformed Nesting
  | .opening body =>
    match tagOf n.entities position body with
    | .error malformed => .error malformed
    | .ok tag => .ok { n with opened := ⟨tag, nameOf body, []⟩ :: n.opened }
  | .empty body =>
    match tagOf n.entities position body with
    | .error malformed => .error malformed
    | .ok tag => n.addElement ⟨tag, []⟩
  | .closing name =>
    match n.opened with
    | [] => .error ⟨.closingUnmatched (String.ofList name), position, none⟩
    | o :: outer =>
      if o.fullName = name then { n with opened := outer }.addElement o.close
      else
        .error ⟨.closingMismatch (String.ofList o.fullName) (String.ofList name), position,
          some o.tag.name⟩
  | .text raw =>
    if n.opened.isEmpty then .ok n
    else
      match expand n.entities raw with
      | .error fault => .error ⟨.reference fault, position, n.innermost?⟩
      | .ok content => .ok (n.addText content)
  | .verbatim content => .ok (n.addText (String.ofList content))
  | .doctype content =>
    .ok { n with
      entities := (declaredEntities content).foldl
        (fun known (name, value) => known.declare name value) n.entities }
  | .comment => .ok n
  | .instruction => .ok n

/-- What is read after all the pieces in order. -/
def Nesting.run (index : LineIndex) (n : Nesting) : List (Located Markup) →
    Except Malformed Nesting
  | [] => .ok n
  | ⟨offset, markup⟩ :: later =>
    match n.step (index.position offset) markup with
    | .error malformed => .error malformed
    | .ok n => n.run index later

/-- The root, when nothing is left open. -/
def Nesting.finish (n : Nesting) : Except Malformed Element :=
  match n.opened, n.root with
  | o :: _, _ => .error ⟨.neverClosed o.tag.name, o.tag.position, some o.tag.name⟩
  | [], some root => .ok root
  | [], none => .error ⟨.noRoot, ⟨1, 1⟩, none⟩

/-! ## Reading a text -/

/-- A text without the byte order mark in front. -/
def dropByteOrderMark : List Char → List Char
  | '\uFEFF' :: cs => cs
  | cs => cs

/-- The root element of a text. References name one of `entities`, else an entity that the
    document type declares, else a predefined one. A byte order mark in front is not counted in
    the offsets, which are then looked up in the whole text. -/
def Element.parse (entities : EntityMap) (source : String) : Except Malformed Element :=
  let cs := source.toList
  let index := LineIndex.of cs
  let found := scan (dropByteOrderMark cs)
  match Nesting.run index ⟨entities, [], none⟩ found.pieces with
  | .error malformed => .error malformed
  | .ok n =>
    match found.fault with
    | some ⟨offset, fault⟩ => .error ⟨.markup fault, index.position offset, n.innermost?⟩
    | none => n.finish

end SchemaFamily.Xml
