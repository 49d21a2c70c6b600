import SchemaFamily.Proofs.Draft.Fresh

/-
  How much a document can import. Every child of the root element is made by a piece of markup of
  its own (`extent_of_step`), and a piece has at least one character (`length_pieces_scanFrom`), so
  a document imports no more files than it has characters (`Draft.length_imports_le`). Which files
  it imports does not depend on where it was read (`Draft.imports_eq`); only its source and maybe
  its name do.
-/

namespace SchemaFamily

namespace Xml

/-! ## Pieces of a text -/

/-- A text is cut into no more pieces than it has characters. -/
theorem length_pieces_scanFrom (offset : Nat) (cs : List Char) :
    (scanFrom offset cs).pieces.length ≤ cs.length := by
  fun_induction scanFrom offset cs with
  | case1 => simp
  | case2 => simp
  | case3 offset inner piece h ih =>
    have := readMarkup_length h
    simp only [Scan.cons, List.length_cons]
    omega
  | case4 offset first inner _ raw ih =>
    have := (List.dropWhile_sublist (p := (· != '<')) (l := inner)).length_le
    simp only [Scan.cons, List.length_cons]
    omega

theorem length_dropByteOrderMark (cs : List Char) :
    (dropByteOrderMark cs).length ≤ cs.length := by
  unfold dropByteOrderMark
  split <;> simp

/-! ## Children read so far -/

/-- Number of the children of the open elements and of the root. -/
def Nesting.extent (n : Nesting) : Nat :=
  (n.opened.flatMap (·.children)).length + (n.root.map (·.children.length)).getD 0

namespace Nesting

variable {n n' : Nesting}

theorem extent_addText (n : Nesting) (content : String) :
    (n.addText content).extent ≤ n.extent + 1 := by
  unfold addText
  split
  · omega
  · next h =>
    simp only [extent, h, List.flatMap_cons, List.length_append, List.length_cons]
    omega

/-- An element that is closed counts once, and what it held no more unless it is the root. -/
theorem extent_of_addElement {e : Element} (h : n.addElement e = .ok n') :
    n'.extent ≤ n.extent + e.children.length + 1 := by
  unfold addElement at h
  split at h
  · next ho =>
    cases h
    simp only [extent, ho, List.flatMap_cons, List.length_append, List.length_cons]
    omega
  · next ho hr =>
    cases h
    simp only [extent, ho, hr, List.flatMap_nil, List.length_nil, Option.map_some, Option.map_none,
      Option.getD_some, Option.getD_none]
    omega
  · cases h

/-- A piece of markup makes one child at most. -/
theorem extent_of_step {position : Position} {markup : Markup}
    (h : n.step position markup = .ok n') : n'.extent ≤ n.extent + 1 := by
  cases markup with
  | opening body =>
    simp only [step] at h
    split at h
    · cases h
    · cases h
      simp [extent]
  | empty body =>
    simp only [step] at h
    split at h
    · cases h
    · exact extent_of_addElement h
  | closing name =>
    simp only [step] at h
    split at h
    · cases h
    · next o outer ho =>
      split at h
      · have hle := extent_of_addElement h
        simp only [OpenElement.close, List.length_reverse] at hle
        simp only [extent, ho, List.flatMap_cons, List.length_append] at hle ⊢
        omega
      · cases h
  | text raw =>
    simp only [step] at h
    split at h
    · cases h
      omega
    · split at h
      · cases h
      · cases h
        exact n.extent_addText _
  | verbatim content =>
    cases h
    exact n.extent_addText _
  | doctype content =>
    cases h
    exact Nat.le_succ _
  | comment =>
    cases h
    exact Nat.le_succ _
  | instruction =>
    cases h
    exact Nat.le_succ _

theorem extent_of_run {index : LineIndex} {pieces : List (Located Markup)}
    (h : n.run index pieces = .ok n') : n'.extent ≤ n.extent + pieces.length := by
  induction pieces generalizing n with
  | nil =>
    cases h
    exact Nat.le_refl _
  | cons piece later ih =>
    simp only [run] at h
    split at h
    · cases h
    · next hstep =>
      have := extent_of_step hstep
      have := ih h
      rw [List.length_cons]
      omega

theorem extent_of_finish {e : Element} (h : n.finish = .ok e) :
    e.children.length ≤ n.extent := by
  unfold finish at h
  split at h
  · cases h
  · next hr =>
    cases h
    simp [extent, hr]
  · cases h

end Nesting

/-- The root of a text has no more children than the text has characters. -/
theorem Element.length_children_le {entities : EntityMap} {source : String} {root : Element}
    (h : Element.parse entities source = .ok root) : root.children.length ≤ source.length := by
  simp only [Element.parse] at h
  split at h
  · cases h
  · next n hrun =>
    split at h
    · cases h
    · have hextent := Nat.le_trans (Nesting.extent_of_finish h) (Nesting.extent_of_run hrun)
      have hpieces := length_pieces_scanFrom 0 (dropByteOrderMark source.toList)
      have hmark := length_dropByteOrderMark source.toList
      rw [String.length_toList] at hmark
      simp only [Nesting.extent, List.flatMap_nil, List.length_nil, Option.map_none,
        Option.getD_none, Nat.zero_add] at hextent
      exact Nat.le_trans hextent (Nat.le_trans hpieces hmark)

end Xml

open Xml

/-! ## Imports of a document -/

theorem Yields.trivial {α : Type} (P : List Drafted → Prop) (r : Reading α) :
    Yields P r fun _ _ => True := fun _ _ _ _ _ => True.intro

/-- Every import is an element of its own. -/
theorem yields_length_readBody (es : List Element) :
    Yields (fun _ => True) (readBody es) fun imports _ => imports.length ≤ es.length := by
  have hskip : ∀ {es : List Element} (e : Element),
      Yields (fun _ => True) (readBody es) (fun imports _ => imports.length ≤ es.length) →
        Yields (fun _ => True) (readBody es) fun imports _ =>
          imports.length ≤ (e :: es).length :=
    fun e h definitions hp imports later hr => Nat.le_succ_of_le (h definitions hp imports later hr)
  induction es with
  | nil => exact Yields.pure fun _ _ => Nat.le_refl _
  | cons e later ih =>
    unfold readBody
    split
    · refine Yields.after fun href _ => ?_
      exact Yields.bind ih fun imports => Yields.pure fun _ h => Nat.succ_le_succ h
    · exact Yields.bind (Yields.trivial _ _) fun _ => hskip e ih
    · exact Yields.bind (Yields.trivial _ _) fun _ => hskip e ih
    · exact Yields.bind (Yields.trivial _ _) fun _ => hskip e ih
    · exact hskip e ih

namespace Draft

variable {entities : EntityMap} {path : Path} {source : String} {draft : Draft}

/-- A draft that was read comes of a root element, whose children are its body. -/
theorem exists_of_read (h : Draft.read entities path source = .ok draft) :
    ∃ root header definitions, Element.parse entities source = .ok root ∧
      root.name = "METASCHEMA" ∧ headerOf path root = .ok header ∧
      (readBody root.elements).run [] = .ok (draft.imports, definitions) ∧
      draft = ⟨header, draft.imports, definitions⟩ := by
  unfold Draft.read at h
  split at h
  · cases h
  · next root hroot =>
    unfold Draft.ofElement at h
    split at h
    · cases h
    · next hname =>
      simp only [bind, Except.bind] at h
      split at h
      · cases h
      · next header hheader =>
        cases hbody : (readBody root.elements).run [] with
        | error e =>
          rw [hbody] at h
          cases h
        | ok result =>
          rw [hbody] at h
          cases h
          exact ⟨root, header, _, hroot, Decidable.not_not.1 hname, hheader, hbody, rfl⟩

/-- A document tells where it was read. -/
theorem source_of_read (h : Draft.read entities path source = .ok draft) :
    draft.header.source = path := by
  obtain ⟨root, header, definitions, _, _, hheader, _, hdraft⟩ := exists_of_read h
  rw [hdraft]
  simp only [headerOf, bind, Except.bind] at hheader
  split at hheader
  · cases hheader
  · cases hheader
    rfl

/-- A document imports no more files than it has characters. -/
theorem length_imports_le (h : Draft.read entities path source = .ok draft) :
    draft.imports.length ≤ source.length := by
  obtain ⟨root, _, _, hroot, _, _, hbody, _⟩ := exists_of_read h
  have himports := yields_length_readBody root.elements [] True.intro _ _ hbody
  have helements : root.elements.length ≤ root.children.length := List.length_filterMap_le _ _
  exact Nat.le_trans himports (Nat.le_trans helements (Element.length_children_le hroot))

/-- What a document imports does not depend on where it was read. -/
theorem imports_eq {path' : Path} {draft' : Draft}
    (h : Draft.read entities path source = .ok draft)
    (h' : Draft.read entities path' source = .ok draft') : draft.imports = draft'.imports := by
  obtain ⟨root, _, _, hroot, _, _, hbody, _⟩ := exists_of_read h
  obtain ⟨root', _, _, hroot', _, _, hbody', _⟩ := exists_of_read h'
  rw [hroot] at hroot'
  cases hroot'
  rw [hbody] at hbody'
  exact congrArg Prod.fst (Except.ok.inj hbody')

end Draft

end SchemaFamily
