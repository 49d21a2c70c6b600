import SchemaFamily.Draft.Prose
import SchemaFamily.Proofs.Text.Words

/-
  Prose and flattened text. `Node.flat` writes an element as one sequence of text, in the order of
  the document, with a separator at each end of a block. Paragraphs read from children are those
  read from their flattened text (`nodes_eq_foldl`), where a separator ends the one at hand; so they
  are the segments between separators that have a word, each normalised (`ended_flush_foldl`).
  Hence the words of the prose are those of the segments, all of them and in their order
  (`prose_of_flat`).
-/

namespace SchemaFamily

open Xml

/-! ## Flattened text -/

/-- A part of a flattened text: text, or the end of a paragraph. -/
inductive Fragment where
  | text (content : String)
  | separator
deriving DecidableEq, Repr

/-- What an anchor says after its text: where it points. -/
def pointer (e : Element) : List Fragment :=
  match e.attribute? "href" with
  | some href => [.text (" (" ++ href ++ ")")]
  | none => []

mutual

/-- The text nodes of a child, in the order of the document. -/
def Xml.Node.texts : Node → List String
  | .text content => [content]
  | .element _ children => Node.textsAll children

/-- The text nodes of children, in the order of the document. -/
def Xml.Node.textsAll : List Node → List String
  | [] => []
  | node :: later => node.texts ++ Node.textsAll later

end

mutual

/-- A child as flattened text. -/
def Xml.Node.flat : Node → List Fragment
  | .text content => [.text content]
  | .element tag children =>
    if tag.name ∈ ["p", "li", "pre", "blockquote", "tr", "h1", "h2", "h3", "h4", "h5", "h6"] then
      .separator :: Node.flatAll children ++ [.separator]
    else if tag.name = "a" then
      .text (normalizeSpace (String.join (Node.textsAll children))) :: pointer ⟨tag, children⟩
    else Node.flatAll children

/-- Children as flattened text, one after the other. -/
def Xml.Node.flatAll : List Node → List Fragment
  | [] => []
  | node :: later => node.flat ++ Node.flatAll later

end

/-- The text of a fragment. -/
def Fragment.content : Fragment → String
  | .text content => content
  | .separator => ""

/-- The texts between separators. -/
def segments (fragments : List Fragment) : List String :=
  (fragments.splitOn .separator).map fun segment => String.join (segment.map Fragment.content)

theorem segments_nil : segments [] = [""] := rfl

theorem segments_separator (later : List Fragment) :
    segments (.separator :: later) = "" :: segments later := by
  rw [segments, List.splitOn_eq_splitOnP, List.splitOnP_cons_eq_if_modifyHead]
  rfl

/-- Text in front belongs to the first segment. -/
theorem segments_text (content : String) (later : List Fragment) :
    segments (.text content :: later) = (segments later).modifyHead (content ++ ·) := by
  rw [segments, segments, List.splitOn_eq_splitOnP, List.splitOn_eq_splitOnP,
    List.splitOnP_cons_eq_if_modifyHead, if_neg (by simp)]
  obtain ⟨first, more, hsplit⟩ :=
    List.exists_cons_of_ne_nil (List.splitOnP_ne_nil (· == Fragment.separator) later)
  rw [hsplit]
  simp only [List.modifyHead_cons, List.map_cons, String.join_cons, Fragment.content]

theorem modifyHead_empty (fragments : List Fragment) :
    (segments fragments).modifyHead ("" ++ ·) = segments fragments := by
  cases segments fragments with
  | nil => rfl
  | cons first more => rw [List.modifyHead_cons, String.empty_append]

/-! ## Paragraphs of flattened text -/

mutual

theorem content_eq_join : ∀ node : Node, node.content = String.join node.texts
  | .text content => by
    rw [Node.content, Node.texts, String.join_cons, String.join_nil, String.append_empty]
  | .element _ children => contents_eq_join children

theorem contents_eq_join :
    ∀ nodes : List Node, Node.contents nodes = String.join (Node.textsAll nodes)
  | [] => rfl
  | node :: later => by
    rw [Node.contents, Node.textsAll, String.join_append, content_eq_join node,
      contents_eq_join later]

end

/-- The text of an element is that of its text nodes, normalised. -/
theorem text_eq_join (e : Element) :
    e.text = normalizeSpace (String.join (Node.textsAll e.children)) :=
  congrArg normalizeSpace (contents_eq_join e.children)

theorem isBlock_iff (name : String) : isBlock name = true ↔
    name ∈ ["p", "li", "pre", "blockquote", "tr", "h1", "h2", "h3", "h4", "h5", "h6"] :=
  List.contains_iff_mem

namespace Paragraphs

/-- What is read after one more fragment. -/
def feed (p : Paragraphs) : Fragment → Paragraphs
  | .text content => p.write content
  | .separator => p.flush

theorem write_write (p : Paragraphs) (first second : String) :
    (p.write first).write second = p.write (first ++ second) := by
  rw [write, write, write, String.append_assoc]

theorem write_anchorText (p : Paragraphs) (e : Element) :
    p.write (anchorText e) =
      (.text (normalizeSpace (String.join (Node.textsAll e.children))) :: pointer e).foldl
        feed p := by
  rw [← text_eq_join, anchorText, pointer]
  cases e.attribute? "href" with
  | none => rfl
  | some href =>
    have hpointer : e.text ++ " (" ++ href ++ ")" = e.text ++ (" (" ++ href ++ ")") := by
      rw [String.append_assoc, String.append_assoc, String.append_assoc]
    exact (congrArg p.write hpointer).trans (p.write_write _ _).symm

mutual

theorem node_eq_foldl (p : Paragraphs) : ∀ node : Node, p.node node = node.flat.foldl feed p
  | .text _ => rfl
  | .element tag children => by
    simp only [node, Node.flat, isBlock_iff]
    split
    · rw [List.cons_append, List.foldl_cons, List.foldl_append, nodes_eq_foldl _ children]
      rfl
    · split
      · exact write_anchorText p _
      · exact nodes_eq_foldl p children

theorem nodes_eq_foldl (p : Paragraphs) :
    ∀ nodes : List Node, p.nodes nodes = (Node.flatAll nodes).foldl feed p
  | [] => rfl
  | node :: later => by
    rw [nodes, Node.flatAll, List.foldl_append, nodes_eq_foldl _ later, node_eq_foldl p node]

end

/-- The paragraphs of segments: those with a word, normalised. -/
def ofSegments (segments : List String) : List String :=
  (segments.filter hasInk).map normalizeSpace

theorem ofSegments_cons (segment : String) (later : List String) :
    ofSegments (segment :: later) = ofSegments [segment] ++ ofSegments later := by
  rw [ofSegments, ofSegments, ofSegments, ← List.map_append, ← List.filter_append]
  rfl

theorem ofSegments_eq_nil_iff (segments : List String) :
    ofSegments segments = [] ↔ ∀ s ∈ segments, hasInk s = false := by
  simp [ofSegments]

/-- The paragraph at hand is ended, when it has a word. -/
theorem ended_flush (p : Paragraphs) :
    p.flush.ended.reverse = p.ended.reverse ++ ofSegments [p.line] := by
  rw [flush, ofSegments]
  cases hink : hasInk p.line with
  | false =>
    rw [if_pos (normalizeSpace_eq_empty_iff.2 hink), List.filter_cons_of_neg (by simp [hink])]
    exact (List.append_nil _).symm
  | true =>
    have hne : normalizeSpace p.line ≠ "" := fun hempty => by
      rw [normalizeSpace_eq_empty_iff.1 hempty] at hink
      cases hink
    rw [if_neg hne, List.filter_cons_of_pos hink]
    exact List.reverse_cons

/-- The paragraphs of a flattened text are those of its segments, what is at hand in front. -/
theorem ended_flush_foldl (p : Paragraphs) (fragments : List Fragment) :
    (fragments.foldl feed p).flush.ended.reverse =
      p.ended.reverse ++ ofSegments ((segments fragments).modifyHead (p.line ++ ·)) := by
  induction fragments generalizing p with
  | nil =>
    rw [List.foldl_nil, ended_flush, segments_nil, List.modifyHead_cons, String.append_empty]
  | cons fragment later ih =>
    rw [List.foldl_cons, ih]
    cases fragment with
    | text content =>
      rw [segments_text, List.modifyHead_modifyHead]
      have happend : (p.line ++ ·) ∘ (content ++ ·) = (p.line ++ content ++ ·) :=
        funext fun _ => String.append_assoc.symm
      rw [happend]
      rfl
    | separator =>
      rw [segments_separator, List.modifyHead_cons, String.append_empty, ofSegments_cons p.line,
        ← List.append_assoc, ← ended_flush]
      exact congrArg (fun more => p.flush.ended.reverse ++ ofSegments more) (modifyHead_empty later)

end Paragraphs

/-- The words of segments are those of their paragraphs. -/
theorem words_ofSegments (segments : List String) :
    (Paragraphs.ofSegments segments).flatMap (fun s => words s.toList) =
      segments.flatMap fun s => words s.toList := by
  induction segments with
  | nil => rfl
  | cons segment later ih =>
    rw [Paragraphs.ofSegments_cons, List.flatMap_append, ih, List.flatMap_cons]
    congr 1
    cases hink : hasInk segment with
    | false =>
      rw [Paragraphs.ofSegments, List.filter_cons_of_neg (by simp [hink]),
        hasInk_eq_false_iff.1 hink]
      rfl
    | true =>
      rw [Paragraphs.ofSegments, List.filter_cons_of_pos hink]
      show words (normalizeSpace segment).toList ++ [] = _
      rw [List.append_nil, words_normalizeSpace]

/-- Prose is the segments of the flattened text that have a word, each normalised, with an empty
    line between neighbours, and none when no segment has one. Its words are those of the segments:
    none is lost or read twice, all come in the order of the text, and no two of different segments
    are joined. -/
theorem prose_of_flat (e : Element) :
    (prose? e =
      if ∀ s ∈ segments (Node.flatAll e.children), hasInk s = false then none
      else some ("\n\n".intercalate
        (((segments (Node.flatAll e.children)).filter hasInk).map normalizeSpace))) ∧
    words ((prose? e).getD "").toList =
      (segments (Node.flatAll e.children)).flatMap fun s => words s.toList := by
  have hended : (Paragraphs.nodes {} e.children).flush.ended.reverse =
      Paragraphs.ofSegments (segments (Node.flatAll e.children)) := by
    rw [Paragraphs.nodes_eq_foldl, Paragraphs.ended_flush_foldl]
    exact congrArg Paragraphs.ofSegments (modifyHead_empty _)
  have hnone := Paragraphs.ofSegments_eq_nil_iff (segments (Node.flatAll e.children))
  rw [← words_ofSegments, ← Paragraphs.ofSegments, prose?]
  rw [← hended] at hnone ⊢
  cases hread : (Paragraphs.nodes {} e.children).flush.ended with
  | nil =>
    rw [hread] at hnone
    exact ⟨(if_pos (hnone.1 rfl)).symm, rfl⟩
  | cons last earlier =>
    have hsome : (last :: earlier).reverse ≠ [] := by simp
    rw [hread] at hnone
    refine ⟨(if_neg fun hblank => hsome (hnone.2 hblank)).symm, ?_⟩
    show words ("\n\n".intercalate (last :: earlier).reverse).toList = _
    rw [String.toList_intercalate, words_intercalate (by decide) (List.all_eq_true.1 (by decide)),
      List.flatMap_map]

end SchemaFamily
