import SchemaFamily.Draft.Reading
import SchemaFamily.Proofs.Xml.Writing

/-
  What is looked for where. A draft is read from some elements only: each context has a lexicon
  of the names that its reader looks for, and of each it says whether the element is read whole, as
  prose and values are, or looked through in a context of its own. `skim` keeps of an element what
  its lexicon names, and of this no place and, where it is looked through, again only what its
  own lexicon names. An element of another name that is put into such a context is not kept, so
  the children with and without it are the same when they are skimmed (`skimAll_inserted`).
-/

namespace SchemaFamily

open Xml

/-! ## Lexicons -/

/-- Where children are looked through. -/
inductive Context where
  | document
  /-- The definition of an assembly. -/
  | assembly (scope : Scope)
  /-- The definition of a field. -/
  | field (scope : Scope)
  /-- The definition of a flag. -/
  | flag
  /-- A usage of a flag, by reference or with its definition in place. -/
  | flagUsage
  | model
  | choice
  /-- A usage of an assembly or a field by reference. -/
  | usage
  | constraint
  | allowedValues
  /-- An element of which only attributes are read. -/
  | closed
deriving DecidableEq, Repr

/-- How an element is read: as a whole, or looked through. -/
inductive Part where
  | whole
  | within (context : Context)
deriving DecidableEq, Repr

/-- The names that are looked for, with how such an element is read. -/
abbrev Lexicon := List (String × Part)

/-- The documentation of a usage. -/
def remarked : Lexicon := [("description", .whole), ("remarks", .whole)]

/-- The documentation of a definition. -/
def documented : Lexicon := remarked ++ [("formal-name", .whole), ("example", .whole)]

/-- The values of a flag. -/
def valued : Lexicon :=
  [("allowed-values", .within .allowedValues), ("constraint", .within .constraint)]

/-- The flags and the key of an assembly or a field. -/
def flagged : Lexicon :=
  [("flag", .within .flagUsage), ("define-flag", .within .flag), ("json-key", .within .closed)]

/-- What a definition in place is used as. -/
def grouped : Scope → Lexicon
  | .inline => [("group-as", .within .closed)]
  | .everywhere => []

/-- The members of a choice. -/
def members : Lexicon :=
  [("assembly", .within .usage), ("field", .within .usage),
   ("define-assembly", .within (.assembly .inline)), ("define-field", .within (.field .inline))]

/-- What is looked for in an element of a tag. -/
def Context.lexicon : Context → Tag → Lexicon
  | .document, _ =>
    [("import", .within .closed), ("define-assembly", .within (.assembly .everywhere)),
     ("define-field", .within (.field .everywhere)), ("define-flag", .within .flag),
     ("short-name", .whole), ("schema-name", .whole), ("schema-version", .whole),
     ("namespace", .whole), ("remarks", .whole)]
  | .assembly scope, _ =>
    documented ++ flagged ++ [("model", .within .model), ("root-name", .whole)] ++ grouped scope
  | .field scope, _ => documented ++ flagged ++ [("json-value-key", .whole)] ++ grouped scope
  | .flag, _ => documented ++ valued
  | .flagUsage, tag =>
    ("value", .whole) :: valued ++
      if (tag.attributes.lookup "ref").isSome then remarked else documented
  | .model, _ =>
    members ++ [("choice", .within .choice), ("prose", .within .closed), ("any", .within .closed)]
  | .choice, _ => members
  | .usage, _ => remarked ++ [("group-as", .within .closed)]
  | .constraint, _ => [("allowed-values", .within .allowedValues)]
  | .allowedValues, _ => [("enum", .whole)]
  | .closed, _ => []

/-! ## Skimmed elements -/

mutual

/-- What is kept of a child: nothing of text and of elements that are not looked for. -/
def Xml.Node.skim (known : Lexicon) : Node → List Node
  | .text _ => []
  | .element tag children =>
    match known.lookup tag.name with
    | none => []
    | some .whole => [.element { tag with position := .unknown } (Node.allUnplaced children)]
    | some (.within context) =>
      [.element { tag with position := .unknown }
        (Node.skimAll (context.lexicon tag) children)]

/-- What is kept of children, in order. -/
def Xml.Node.skimAll (known : Lexicon) : List Node → List Node
  | [] => []
  | node :: later => node.skim known ++ Node.skimAll known later

end

/-- The element with what is kept of its children. -/
def Xml.Element.skim (known : Lexicon) (e : Element) : Element :=
  ⟨{ e.tag with position := .unknown }, Node.skimAll known e.children⟩

/-- What is kept of an element that is read in a way. -/
def Part.take : Part → Element → Element
  | .whole, e => e.unplaced
  | .within context, e => e.skim (context.lexicon e.tag)

@[simp]
theorem Part.name_take (part : Part) (e : Element) : (part.take e).name = e.name := by
  cases part <;> rfl

/-- What is kept of an element, if it is looked for. -/
def Lexicon.keep? (known : Lexicon) (e : Element) : Option Element :=
  (known.lookup e.name).map (·.take e)

namespace Xml

variable {known : Lexicon}

theorem Node.filterMap_skim (node : Node) :
    (node.skim known).filterMap Node.element? = (node.element?.bind known.keep?).toList := by
  cases node with
  | text => rfl
  | element tag children =>
    rw [Node.skim]
    show _ = (Option.map (·.take ⟨tag, children⟩) (known.lookup tag.name)).toList
    cases known.lookup tag.name with
    | none => rfl
    | some part => cases part <;> rfl

theorem Node.skimAll_append (nodes later : List Node) :
    Node.skimAll known (nodes ++ later) = Node.skimAll known nodes ++ Node.skimAll known later := by
  induction nodes with
  | nil => rfl
  | cons node nodes ih => rw [List.cons_append, skimAll, skimAll, ih, List.append_assoc]

theorem Node.filterMap_skimAll (nodes : List Node) :
    (Node.skimAll known nodes).filterMap Node.element? =
      (nodes.filterMap Node.element?).filterMap known.keep? := by
  induction nodes with
  | nil => rfl
  | cons node later ih =>
    rw [skimAll, List.filterMap_append, filterMap_skim, ih]
    cases node with
    | text => rfl
    | element tag children =>
      show _ = List.filterMap known.keep? (⟨tag, children⟩ :: later.filterMap Node.element?)
      rw [List.filterMap_cons]
      show (known.keep? ⟨tag, children⟩).toList ++ _ = _
      cases known.keep? ⟨tag, children⟩ <;> rfl

namespace Element

variable (e : Element)

@[simp]
theorem name_skim : (e.skim known).name = e.name := rfl

@[simp]
theorem attribute?_skim (key : String) : (e.skim known).attribute? key = e.attribute? key := rfl

@[simp]
theorem attribute?_unplaced (key : String) : e.unplaced.attribute? key = e.attribute? key := rfl

/-- The elements that are kept, in order. -/
theorem elements_skim : (e.skim known).elements = e.elements.filterMap known.keep? :=
  Node.filterMap_skimAll e.children

variable {name : String} {part : Part}

/-- Elements of a name that is looked for are all kept. -/
theorem childrenNamed_skim (h : known.lookup name = some part) :
    (e.skim known).childrenNamed name = (e.childrenNamed name).map part.take := by
  rw [childrenNamed, childrenNamed, elements_skim]
  induction e.elements with
  | nil => rfl
  | cons x later ih =>
    rw [List.filterMap_cons, Lexicon.keep?]
    by_cases hname : x.name = name
    · rw [hname, h, List.filter_cons_of_pos (by simp [hname])]
      show List.filter _ (part.take x :: _) = _
      rw [List.filter_cons_of_pos (by simp [hname]), ih, List.map_cons]
    · rw [List.filter_cons_of_neg (by simp [hname]), ← ih]
      cases known.lookup x.name with
      | none => rfl
      | some other =>
        show List.filter _ (other.take x :: _) = _
        rw [List.filter_cons_of_neg (by simp [hname])]

theorem child?_skim (h : known.lookup name = some part) :
    (e.skim known).child? name = (e.child? name).map part.take := by
  rw [child?_eq_head?, child?_eq_head?, childrenNamed_skim e h, List.head?_map]

end Element

/-! ## Inserting elements -/

/-- Into the children of an element with this lexicon, or of one that is looked through in it,
    an element is put that is not looked for there; or one that is there gets other content. -/
inductive Inserted : Lexicon → List Node → List Node → Prop
  | here {known : Lexicon} {tag : Tag} (front content back : List Node)
      (unknown : known.lookup tag.name = none) :
      Inserted known (front ++ back) (front ++ .element tag content :: back)
  | ignored {known : Lexicon} {tag : Tag} (front content content' back : List Node)
      (unknown : known.lookup tag.name = none) :
      Inserted known (front ++ .element tag content :: back)
        (front ++ .element tag content' :: back)
  | inside {known : Lexicon} {tag : Tag} {context : Context} {children children' : List Node}
      (front back : List Node) (looked : known.lookup tag.name = some (.within context))
      (inner : Inserted (context.lexicon tag) children children') :
      Inserted known (front ++ .element tag children :: back)
        (front ++ .element tag children' :: back)

/-- What is put where it is not looked for is not kept. -/
theorem skimAll_inserted {nodes nodes' : List Node} (h : Inserted known nodes nodes') :
    Node.skimAll known nodes = Node.skimAll known nodes' := by
  induction h with
  | here front content back unknown =>
    rw [Node.skimAll_append, Node.skimAll_append, Node.skimAll, Node.skim, unknown]
    rfl
  | ignored front content content' back unknown =>
    rw [Node.skimAll_append, Node.skimAll_append, Node.skimAll, Node.skimAll, Node.skim, Node.skim,
      unknown]
  | inside front back looked inner ih =>
    rw [Node.skimAll_append, Node.skimAll_append, Node.skimAll, Node.skimAll, Node.skim, Node.skim,
      looked]
    dsimp only
    rw [ih]

/-! ## Places -/

mutual

theorem Node.unplaced_unplaced : ∀ node : Node, node.unplaced.unplaced = node.unplaced
  | .text _ => rfl
  | .element tag children => by
    rw [Node.unplaced, Node.unplaced, allUnplaced_allUnplaced children]

theorem Node.allUnplaced_allUnplaced : ∀ nodes : List Node,
    Node.allUnplaced (Node.allUnplaced nodes) = Node.allUnplaced nodes
  | [] => rfl
  | node :: later => by
    rw [Node.allUnplaced, Node.allUnplaced, unplaced_unplaced node, allUnplaced_allUnplaced later]

end

mutual

theorem Node.skim_unplaced (known : Lexicon) : ∀ node : Node,
    node.unplaced.skim known = node.skim known
  | .text _ => rfl
  | .element tag children => by
    rw [Node.unplaced, Node.skim, Node.skim]
    dsimp only
    cases known.lookup tag.name with
    | none => rfl
    | some part =>
      cases part with
      | whole => dsimp only; rw [allUnplaced_allUnplaced children]
      | within context =>
        have hlexicon : context.lexicon { tag with position := .unknown } =
            context.lexicon tag := by cases context <;> rfl
        dsimp only
        rw [hlexicon, skimAll_allUnplaced _ children]

/-- What is kept does not depend on places. -/
theorem Node.skimAll_allUnplaced (known : Lexicon) : ∀ nodes : List Node,
    Node.skimAll known (Node.allUnplaced nodes) = Node.skimAll known nodes
  | [] => rfl
  | node :: later => by
    rw [Node.allUnplaced, Node.skimAll, Node.skimAll, skim_unplaced known node,
      skimAll_allUnplaced known later]

end

theorem Element.skim_unplaced (known : Lexicon) (e : Element) :
    e.unplaced.skim known = e.skim known := by
  rw [Element.skim, Element.skim, Element.unplaced, Node.skimAll_allUnplaced]

end Xml

end SchemaFamily
