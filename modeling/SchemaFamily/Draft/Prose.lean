import SchemaFamily.Xml.Element

/-
  Prose. A markup element is read as paragraphs: a block element ends the paragraph before it and
  the one inside it, all other elements run on, and an anchor is its text followed by where it
  points. A paragraph is its words; one without words is none. Paragraphs stand apart by an empty
  line.
-/

namespace SchemaFamily

open Xml

/-- Elements that are paragraphs of their own. -/
def isBlock (name : String) : Bool :=
  ["p", "li", "pre", "blockquote", "tr", "h1", "h2", "h3", "h4", "h5", "h6"].contains name

/-- Paragraphs read so far, newest first, and the text of the one that is not ended. -/
structure Paragraphs where
  ended : List String := []
  line : String := ""
deriving DecidableEq, Repr

/-- Ends the paragraph at hand. -/
def Paragraphs.flush (p : Paragraphs) : Paragraphs :=
  let paragraph := normalizeSpace p.line
  ⟨if paragraph = "" then p.ended else paragraph :: p.ended, ""⟩

/-- Adds text to the paragraph at hand. -/
def Paragraphs.write (p : Paragraphs) (text : String) : Paragraphs :=
  { p with line := p.line ++ text }

/-- How an anchor reads. -/
def anchorText (e : Element) : String :=
  match e.attribute? "href" with
  | some href => s!"{e.text} ({href})"
  | none => e.text

mutual

/-- What is read after one more child. -/
def Paragraphs.node (p : Paragraphs) : Node → Paragraphs
  | .text content => p.write content
  | .element tag children =>
    if isBlock tag.name then (p.flush.nodes children).flush
    else if tag.name = "a" then p.write (anchorText ⟨tag, children⟩)
    else p.nodes children

/-- What is read after more children. -/
def Paragraphs.nodes (p : Paragraphs) : List Node → Paragraphs
  | [] => p
  | node :: later => (p.node node).nodes later

end

/-- The paragraphs of an element, when it has any. -/
def prose? (e : Element) : Option String :=
  match (Paragraphs.nodes {} e.children).flush.ended with
  | [] => none
  | paragraphs => some ("\n\n".intercalate paragraphs.reverse)

end SchemaFamily
