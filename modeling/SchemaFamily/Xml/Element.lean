import SchemaFamily.Text.Blank
import SchemaFamily.Text.Position

/-
  Element trees. An `Element` is a tag with children; a child is an element or a run of text.
  Names are local names, and attributes keep the order of the text. Children are looked up by
  name in document order: `child?` is the first of `childrenNamed`.
-/

namespace SchemaFamily.Xml

/-- What a tag says: the element's local name, its attributes in order, and where it starts. -/
structure Tag where
  name : String
  attributes : List (String × String)
  position : Position
deriving DecidableEq, Repr, Inhabited

/-- A child of an element. -/
inductive Node where
  | text (content : String)
  | element (tag : Tag) (children : List Node)
deriving Repr, Inhabited

/-- An element with its children in document order. -/
structure Element where
  tag : Tag
  children : List Node
deriving Repr, Inhabited

namespace Element

/-- The element's local name. -/
def name (e : Element) : String := e.tag.name

/-- Where the element starts. -/
def position (e : Element) : Position := e.tag.position

/-- The element as a child. -/
def toNode (e : Element) : Node := .element e.tag e.children

end Element

/-- The element that a child is, unless it is text. -/
def Node.element? : Node → Option Element
  | .text _ => none
  | .element tag children => some ⟨tag, children⟩

/-! ## Text -/

mutual

/-- The text of a child and of everything inside it, as written. -/
def Node.content : Node → String
  | .text content => content
  | .element _ children => Node.contents children

/-- The text of several children, one after the other. -/
def Node.contents : List Node → String
  | [] => ""
  | node :: later => node.content ++ Node.contents later

end

namespace Element

/-- The words of an element's text, however deep, with one space between neighbours. -/
def text (e : Element) : String := normalizeSpace (Node.contents e.children)

/-! ## Looking up -/

/-- The value of the first attribute of that local name. -/
def attribute? (e : Element) (name : String) : Option String := e.tag.attributes.lookup name

/-- The child elements in document order. -/
def elements (e : Element) : List Element := e.children.filterMap Node.element?

/-- The child elements of that name in document order. -/
def childrenNamed (e : Element) (name : String) : List Element :=
  e.elements.filter (·.name == name)

/-- The first child element of that name. -/
def child? (e : Element) (name : String) : Option Element := e.elements.find? (·.name == name)

theorem child?_eq_head? (e : Element) (name : String) :
    e.child? name = (e.childrenNamed name).head? := by
  simp [child?, childrenNamed, List.head?_filter]

/-- The text of the first child element of that name, when it has a word. -/
def childText? (e : Element) (name : String) : Option String :=
  ((e.child? name).map text).filter (· != "")

/-- The elements reached from `e` by taking the first child of each name in turn. -/
def descend? (e : Element) : List String → Option Element
  | [] => some e
  | name :: names => (e.child? name).bind (descend? · names)

end Element

end SchemaFamily.Xml
