import SchemaFamily.Proofs.Xml.Feeding
import SchemaFamily.Proofs.Xml.Tags

/-
  Writing elements. `Written` says which texts write a list of children: text is escaped, tags are
  written plainly, an element without children with one tag or with two, and comments and
  instructions may stand before and after every child. What is written for an element adds the
  element to what has been read (`Adds`), and what is written for the children of an element fills
  it (`Fills`); so reading gives back an element that was written, but for the places that it was
  read from (`parse_of_written`).
-/

namespace SchemaFamily.Xml

/-! ## Trees without places -/

mutual

/-- A child without the places of its elements. -/
def Node.unplaced : Node → Node
  | .text content => .text content
  | .element tag children => .element { tag with position := .unknown } (Node.allUnplaced children)

/-- Children without the places of their elements. -/
def Node.allUnplaced : List Node → List Node
  | [] => []
  | node :: later => node.unplaced :: Node.allUnplaced later

end

/-- An element without its place and those of the elements in it. -/
def Element.unplaced (e : Element) : Element :=
  ⟨{ e.tag with position := .unknown }, Node.allUnplaced e.children⟩

theorem Element.unplaced_toNode (e : Element) : e.toNode.unplaced = e.unplaced.toNode := rfl

theorem Node.allUnplaced_cons (node : Node) (later : List Node) :
    Node.allUnplaced (node :: later) = node.unplaced :: Node.allUnplaced later := rfl

/-! ## Comments and instructions -/

/-- A comment or an instruction, by what it holds. -/
inductive Aside where
  | comment (content : List Char)
  | instruction (content : List Char)
deriving DecidableEq, Repr

namespace Aside

/-- An aside as it is written, after its `<`. -/
def body : Aside → List Char
  | .comment content => '!' :: '-' :: '-' :: content ++ ['-', '-']
  | .instruction content => '?' :: content ++ ['?']

/-- An aside as it is written. -/
def write (aside : Aside) : List Char := '<' :: aside.body ++ ['>']

/-- What the aside holds does not close it. -/
def Whole : Aside → Prop
  | .comment content => ¬ "-->".toList <:+: content
  | .instruction content => ¬ "?>".toList <:+: '?' :: content

instance : (aside : Aside) → Decidable aside.Whole
  | .comment content => inferInstanceAs (Decidable ¬ "-->".toList <:+: content)
  | .instruction content => inferInstanceAs (Decidable ¬ "?>".toList <:+: '?' :: content)

/-- What the aside is read as. -/
def markup : Aside → Markup
  | .comment _ => .comment
  | .instruction _ => .instruction

theorem readMarkup_body {aside : Aside} (h : aside.Whole) (offset : Nat) (later : List Char) :
    ∃ size, readMarkup offset (aside.body ++ '>' :: later) = .ok ⟨aside.markup, size, later⟩ := by
  cases aside with
  | comment content => exact ⟨_, readMarkup_comment h offset later⟩
  | instruction content => exact ⟨_, readMarkup_instruction h offset later⟩

end Aside

/-! ## Written children -/

/-- A start tag as it is written. -/
def Tag.opening (tag : Tag) : List Char := '<' :: tag.write ++ ['>']

/-- A tag of an element without children as it is written. -/
def Tag.single (tag : Tag) : List Char := '<' :: tag.write ++ ['/', '>']

/-- An end tag as it is written. -/
def Tag.closing (tag : Tag) : List Char := '<' :: '/' :: tag.name.toList ++ ['>']

/-- The text writes the children: each is written as it is, and comments and instructions may stand
    before it and behind the last. -/
inductive Written : List Node → List Char → Prop
  | nil : Written [] []
  | aside {aside : Aside} {nodes : List Node} {cs : List Char} (whole : aside.Whole)
      (later : Written nodes cs) : Written nodes (aside.write ++ cs)
  | text {content : String} {nodes : List Node} {cs : List Char} (later : Written nodes cs) :
      Written (.text content :: nodes) (escape content.toList ++ cs)
  | single {tag : Tag} {nodes : List Node} {cs : List Char} (later : Written nodes cs) :
      Written (.element tag [] :: nodes) (tag.single ++ cs)
  | element {tag : Tag} {children nodes : List Node} {inner cs : List Char}
      (inside : Written children inner) (later : Written nodes cs) :
      Written (.element tag children :: nodes) (tag.opening ++ inner ++ tag.closing ++ cs)

/-- Children that are read as they are written: their tags are plain, no text is empty, and no two
    texts stand side by side. -/
inductive Plain : List Node → Prop
  | nil : Plain []
  | text {content : String} {nodes : List Node} (filled : content ≠ "")
      (apart : ∀ other more, nodes ≠ .text other :: more) (later : Plain nodes) :
      Plain (.text content :: nodes)
  | element {tag : Tag} {children nodes : List Node} (plain : tag.Plain) (inside : Plain children)
      (later : Plain nodes) : Plain (.element tag children :: nodes)

/-- What is written for children of which the first is no text starts with markup. -/
theorem Written.startsMarkup {nodes : List Node} {cs rest : List Char} (h : Written nodes cs)
    (hnodes : ∀ other more, nodes ≠ .text other :: more) (hrest : StartsMarkup rest) :
    StartsMarkup (cs ++ rest) := by
  cases h with
  | nil => exact hrest
  | aside => exact startsMarkup_cons _
  | text => exact absurd rfl (hnodes _ _)
  | single => exact startsMarkup_cons _
  | element => exact startsMarkup_cons _

/-! ## Reading what is written -/

section

variable {index : LineIndex} {tag : Tag} {n : Nesting}

theorem resume_aside (index : LineIndex) {aside : Aside} (h : aside.Whole) (n : Nesting)
    (offset : Nat) (rest : List Char) :
    ∃ offset', n.resume index offset (aside.write ++ rest) = n.resume index offset' rest := by
  obtain ⟨size, hread⟩ := aside.readMarkup_body h offset rest
  refine ⟨offset + 1 + size, ?_⟩
  rw [Aside.write, List.append_assoc, List.cons_append, List.singleton_append,
    Nesting.resume_markup hread]
  cases aside <;> rfl

/-- A start tag opens one element more. -/
theorem resume_opening (index : LineIndex) (h : tag.Plain) (hkept : n.entities.KeepsPredefined)
    (offset : Nat) (rest : List Char) :
    ∃ offset', n.resume index offset (tag.opening ++ rest) =
      Nesting.resume index { n with opened :=
        ⟨{ tag with position := index.position offset }, tag.name.toList, []⟩ :: n.opened }
        offset' rest := by
  refine ⟨offset + 1 + (byteLength tag.write + 1), ?_⟩
  rw [Tag.opening, List.append_assoc, List.cons_append, List.singleton_append,
    Nesting.resume_markup (readMarkup_opening h offset rest), Nesting.step, tagOf_write hkept h,
    nameOf_write h]
  rfl

/-- The end tag of the innermost open element closes it. -/
theorem resume_closing (index : LineIndex) (name : MarkupName) (tail : Blanks isSpace)
    {o : OpenElement} {outer : List OpenElement} (hopened : n.opened = o :: outer)
    (ho : o.fullName = name.chars) (offset : Nat) (rest : List Char) :
    ∃ offset', n.resume index offset ('<' :: ('/' :: (name.chars ++ tail.chars) ++ '>' :: rest)) =
      ({ n with opened := outer }.addElement o.close).bind (·.resume index offset' rest) := by
  refine ⟨offset + 1 + (byteLength (name.chars ++ tail.chars) + 2), ?_⟩
  rw [Nesting.resume_markup (readMarkup_closing name tail offset rest), Nesting.step, hopened]
  dsimp only
  rw [if_pos ho]

/-- Reading the text adds the element, but for its places. -/
def Adds (index : LineIndex) (e : Element) (cs : List Char) : Prop :=
  ∀ (n : Nesting) (offset : Nat) (rest : List Char), n.entities.KeepsPredefined →
    ∃ (e' : Element) (offset' : Nat), e'.unplaced = e.unplaced ∧
      n.resume index offset (cs ++ rest) = (n.addElement e').bind (·.resume index offset' rest)

/-- Reading the text fills the innermost open element with the children, but for their places. -/
def Fills (index : LineIndex) (nodes : List Node) (cs : List Char) : Prop :=
  ∀ (n : Nesting) (o : OpenElement) (outer : List OpenElement) (offset : Nat) (rest : List Char),
    n.entities.KeepsPredefined → n.opened = o :: outer → StartsMarkup rest →
      ∃ (children : List Node) (offset' : Nat),
        Node.allUnplaced children = Node.allUnplaced nodes ∧
        n.resume index offset (cs ++ rest) =
          Nesting.resume index
            { n with opened := { o with children := children.reverse ++ o.children } :: outer }
            offset' rest

theorem adds_single (h : tag.Plain) : Adds index ⟨tag, []⟩ tag.single := by
  intro n offset rest hkept
  refine ⟨⟨{ tag with position := index.position offset }, []⟩,
    offset + 1 + (byteLength tag.write + 2), rfl, ?_⟩
  have hread := readMarkup_empty h offset rest
  rw [Tag.single, List.append_assoc, List.cons_append]
  show n.resume index offset ('<' :: (tag.write ++ '/' :: '>' :: rest)) = _
  rw [Nesting.resume_markup hread, Nesting.step, tagOf_write hkept h]

/-- An element that is closed has the children that it was filled with. -/
theorem close_filled (tag : Tag) (fullName : List Char) (children : List Node) :
    OpenElement.close ⟨tag, fullName, children.reverse ++ []⟩ = ⟨tag, children⟩ := by
  rw [OpenElement.close, List.append_nil, List.reverse_reverse]

theorem adds_element {children : List Node} {inner : List Char} (h : tag.Plain)
    (hinside : Fills index children inner) :
    Adds index ⟨tag, children⟩ (tag.opening ++ inner ++ tag.closing) := by
  intro n offset rest hkept
  obtain ⟨offset₁, hopening⟩ := resume_opening index h hkept offset
    (inner ++ (tag.closing ++ rest))
  obtain ⟨read, offset₂, hread, hinner⟩ := hinside
    { n with opened :=
      ⟨{ tag with position := index.position offset }, tag.name.toList, []⟩ :: n.opened }
    _ _ offset₁ (tag.closing ++ rest) hkept rfl (startsMarkup_cons _)
  obtain ⟨offset₃, hclosing⟩ := resume_closing index
    (n := { n with opened := ⟨{ tag with position := index.position offset }, tag.name.toList,
      read.reverse ++ []⟩ :: n.opened }) h.name.markupName .empty rfl rfl offset₂ rest
  have hwrite : tag.closing ++ rest =
      '<' :: ('/' :: (h.name.markupName.chars ++ []) ++ '>' :: rest) := by
    simp [Tag.closing, IsPlainName.markupName]
  refine ⟨⟨{ tag with position := index.position offset }, read⟩, offset₃, ?_, ?_⟩
  · rw [Element.unplaced, hread]
    rfl
  · rw [List.append_assoc, List.append_assoc, hopening, hinner]
    rw [close_filled] at hclosing
    rw [hwrite]
    exact hclosing

theorem fills_nil : Fills index [] [] := by
  intro n o outer offset rest _ hopened _
  refine ⟨[], offset, rfl, ?_⟩
  have hn : n = { n with opened := { o with children := [].reverse ++ o.children } :: outer } := by
    cases n
    cases hopened
    rfl
  rw [← hn, List.nil_append]

theorem fills_aside {aside : Aside} {nodes : List Node} {cs : List Char} (h : aside.Whole)
    (hlater : Fills index nodes cs) : Fills index nodes (aside.write ++ cs) := by
  intro n o outer offset rest hkept hopened hrest
  obtain ⟨offset₁, haside⟩ := resume_aside index h n offset (cs ++ rest)
  rw [List.append_assoc, haside]
  exact hlater n o outer offset₁ rest hkept hopened hrest

/-- Children fill an element one after the other. -/
theorem fills_cons {node node' : Node} {nodes : List Node} {o : OpenElement}
    {outer : List OpenElement} {cs rest : List Char} {offset : Nat}
    (hnode : node'.unplaced = node.unplaced) (hkept : n.entities.KeepsPredefined)
    (hrest : StartsMarkup rest)
    (hlater : Fills index nodes cs) :
    ∃ (children : List Node) (offset' : Nat),
      Node.allUnplaced children = Node.allUnplaced (node :: nodes) ∧
      Nesting.resume index { n with opened := { o with children := node' :: o.children } :: outer }
          offset (cs ++ rest) =
        Nesting.resume index
          { n with opened := { o with children := children.reverse ++ o.children } :: outer }
          offset' rest := by
  obtain ⟨children, offset', hchildren, hread⟩ := hlater
    { n with opened := { o with children := node' :: o.children } :: outer } _ _ offset rest hkept
    rfl hrest
  refine ⟨node' :: children, offset', ?_, ?_⟩
  · rw [Node.allUnplaced_cons, Node.allUnplaced_cons, hnode, hchildren]
  · rw [hread, List.reverse_cons, List.append_assoc]
    rfl

theorem fills_text {content : String} {nodes : List Node} {cs : List Char} (hne : content ≠ "")
    (hstarts : ∀ rest, StartsMarkup rest → StartsMarkup (cs ++ rest))
    (hlater : Fills index nodes cs) :
    Fills index (.text content :: nodes) (escape content.toList ++ cs) := by
  intro n o outer offset rest hkept hopened hrest
  have hraw : escape content.toList ≠ [] :=
    escape_ne_nil fun h => hne (String.toList_eq_nil_iff.1 h)
  have hstep : n.step (index.position offset) (.text (escape content.toList)) =
      .ok { n with opened := { o with children := .text content :: o.children } :: outer } := by
    obtain ⟨entities, opened, root⟩ := n
    cases hopened
    rw [Nesting.step, if_neg (fun h => by cases h), expand_escape hkept, String.ofList_toList]
    rfl
  rw [List.append_assoc, Nesting.resume_text hraw (fun c hc => (ne_of_mem_escape hc).1)
    (hstarts rest hrest), hstep]
  exact fills_cons rfl hkept hrest hlater

theorem fills_element {e : Element} {nodes : List Node} {cs cs' : List Char}
    (he : Adds index e cs) (hlater : Fills index nodes cs') :
    Fills index (e.toNode :: nodes) (cs ++ cs') := by
  intro n o outer offset rest hkept hopened hrest
  obtain ⟨e', offset₁, hunplaced, hread⟩ := he n offset (cs' ++ rest) hkept
  rw [List.append_assoc, hread, Nesting.addElement, hopened]
  refine fills_cons ?_ hkept hrest hlater
  rw [Element.unplaced_toNode, Element.unplaced_toNode, hunplaced]

/-- What is written for children fills an element with them. -/
theorem fills_of_written {nodes : List Node} {cs : List Char} (h : Written nodes cs)
    (hplain : Plain nodes) : Fills index nodes cs := by
  induction h with
  | nil => exact fills_nil
  | aside whole _ ih => exact fills_aside whole (ih hplain)
  | text later ih =>
    cases hplain with
    | text filled apart plain =>
      exact fills_text filled (fun rest hrest => later.startsMarkup apart hrest) (ih plain)
  | single _ ih =>
    cases hplain with
    | element plain _ later => exact fills_element (adds_single plain) (ih later)
  | element _ _ ihinside ihlater =>
    cases hplain with
    | element plain inside later =>
      exact fills_element (adds_element plain (ihinside inside)) (ihlater later)

/-- Only comments and instructions are written for no children. -/
theorem resume_of_written_nil {cs : List Char} (h : Written [] cs) (n : Nesting) (offset : Nat) :
    n.resume index offset cs = n.finish := by
  generalize hnodes : [] = nodes at h
  induction h generalizing offset with
  | nil => exact Nesting.resume_nil n offset
  | aside whole _ ih =>
    obtain ⟨offset', hread⟩ := resume_aside index whole n offset _
    rw [hread, ih offset' hnodes]
  | text => cases hnodes
  | single => cases hnodes
  | element => cases hnodes

/-- An element that is added where nothing is open is the root. -/
theorem finish_of_adds {e : Element} {cs later : List Char} (he : Adds index e cs)
    (hlater : Written [] later) (hkept : n.entities.KeepsPredefined) (hopened : n.opened = [])
    (hroot : n.root = none) (offset : Nat) :
    ∃ e', n.resume index offset (cs ++ later) = .ok e' ∧ e'.unplaced = e.unplaced := by
  obtain ⟨e', offset', hunplaced, hread⟩ := he n offset later hkept
  refine ⟨e', ?_, hunplaced⟩
  obtain ⟨entities, opened, root⟩ := n
  cases hopened
  cases hroot
  rw [hread]
  show Nesting.resume index ⟨entities, [], some e'⟩ offset' later = _
  rw [resume_of_written_nil hlater]
  rfl

theorem resume_of_written {root : Element} {cs : List Char} (h : Written [root.toNode] cs)
    (hplain : Plain [root.toNode]) (hkept : n.entities.KeepsPredefined) (hopened : n.opened = [])
    (hroot : n.root = none) (offset : Nat) :
    ∃ e, n.resume index offset cs = .ok e ∧ e.unplaced = root.unplaced := by
  obtain ⟨rootTag, rootChildren⟩ := root
  generalize hnodes : [Element.toNode ⟨rootTag, rootChildren⟩] = nodes at h
  induction h generalizing offset with
  | nil => cases hnodes
  | aside whole _ ih =>
    obtain ⟨offset', hread⟩ := resume_aside index whole n offset _
    rw [hread]
    exact ih offset' hnodes
  | text => cases hnodes
  | single later _ =>
    cases hnodes
    cases hplain with
    | element plain _ _ => exact finish_of_adds (adds_single plain) later hkept hopened hroot offset
  | element inside later _ _ =>
    cases hnodes
    cases hplain with
    | element plain hinside _ =>
      exact finish_of_adds (adds_element plain (fills_of_written inside hinside)) later hkept
        hopened hroot offset

end

/-! ## A writer -/

mutual

/-- A child as it is written without comments and instructions, an element without children with
    one tag. -/
def Node.write : Node → List Char
  | .text content => escape content.toList
  | .element tag [] => tag.single
  | .element tag (node :: later) => tag.opening ++ Node.writeAll (node :: later) ++ tag.closing

/-- Children as they are written without comments and instructions. -/
def Node.writeAll : List Node → List Char
  | [] => []
  | node :: later => node.write ++ Node.writeAll later

end

mutual

theorem written_write : ∀ (node : Node) {nodes : List Node} {cs : List Char}, Written nodes cs →
    Written (node :: nodes) (node.write ++ cs)
  | .text content, _, _, h => by
    rw [Node.write]
    exact .text h
  | .element tag [], _, _, h => by
    rw [Node.write]
    exact .single h
  | .element tag (node :: later), _, _, h => by
    rw [Node.write]
    exact .element (written_writeAll (node :: later)) h

theorem written_writeAll : ∀ nodes : List Node, Written nodes (Node.writeAll nodes)
  | [] => .nil
  | node :: later => by
    rw [Node.writeAll]
    exact written_write node (written_writeAll later)

end

/-- A text that writes an element is read as the element, but for the places that it is read from:
    names, attributes with their order and values, children in order and every text come back, when
    the names are plain, no text is empty and no two stand side by side. The writer gives such a
    text, and others have tags of their own around no children and comments and instructions
    between children and around the root. -/
theorem parse_of_written {entities : EntityMap} (hkept : entities.KeepsPredefined) {root : Element}
    (hplain : Plain [root.toNode]) :
    Written [root.toNode] root.toNode.write ∧
    ∀ cs, Written [root.toNode] cs →
      ∃ e, Element.parse entities (String.ofList cs) = .ok e ∧ e.unplaced = root.unplaced := by
  refine ⟨?_, fun cs hwritten => ?_⟩
  · have hwrite := written_write root.toNode .nil
    rwa [List.append_nil] at hwrite
  · have hstarts : StartsMarkup (cs ++ []) :=
      hwritten.startsMarkup (fun _ _ h => by cases h) startsMarkup_nil
    rw [List.append_nil] at hstarts
    rw [Element.parse_eq_resume, String.toList_ofList, hstarts.dropByteOrderMark_eq]
    exact resume_of_written hwritten hplain hkept rfl rfl 0

/-- An element with a value that is escaped, a text, and two elements side by side. -/
def quotedTree : Element :=
  ⟨⟨"a", [("id", "<\"&\">")], .unknown⟩,
    [.text " 1 < 2\n", .element ⟨"b-2", [], .unknown⟩ [], .element ⟨"c", [], .unknown⟩ []]⟩

/-- The element with an instruction in front and a comment between the two elements, of which one
    has a tag of its own at its end. -/
def quotedText : String :=
  "<?xml version=\"1.0\"?><a id=\"&lt;&quot;&amp;&quot;&gt;\"> 1 &lt; 2\n<b-2></b-2><!-- c -->" ++
    "<c/></a>"

theorem parse_quotedText :
    ∃ e, Element.parse [("org", "NIST")] quotedText = .ok e ∧ e.unplaced = quotedTree.unplaced := by
  have hplain : Plain [quotedTree.toNode] := by
    refine .element (by decide) (.text (by decide) (fun _ _ h => by cases h) ?_) .nil
    exact .element (by decide) .nil (.element (by decide) .nil .nil)
  have hwhole : (Aside.comment " c ".toList).Whole ∧
      (Aside.instruction "xml version=\"1.0\"".toList).Whole := by decide
  have hinside : Written quotedTree.children
      (" 1 &lt; 2\n<b-2></b-2><!-- c --><c/>".toList) :=
    .text (.element .nil (.aside hwhole.1 (.single .nil)))
  have hwritten : Written [quotedTree.toNode] quotedText.toList :=
    .aside hwhole.2 (.element hinside .nil)
  have hkept : EntityMap.KeepsPredefined [("org", "NIST")] := by decide
  have hparse := (parse_of_written hkept hplain).2 _ hwritten
  rwa [String.ofList_toList] at hparse

end SchemaFamily.Xml
