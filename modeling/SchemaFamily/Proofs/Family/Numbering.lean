import SchemaFamily.Proofs.Family.Arranged
import SchemaFamily.Proofs.Family.Drafts
import SchemaFamily.Proofs.Family.Subtree

/-
  How a family is numbered. What adding a draft and recording an import keep holds of the graph of
  a tree (`ofTree_induction`). So that graph is arranged (`arranged_ofTree`), its documents stand
  in a row, depth first (`spans_ofTree`), and its declarations are the definitions of the drafts in
  order, each with the handles of its inline usages shifted (`numbers_ofTree`).
-/

namespace SchemaFamily

namespace Graph

/-! ## The graph of a tree -/

mutual

/-- Adding a tree adds a document. -/
theorem size_lt_graft : ∀ (g : Graph) (tree : ImportTree),
    g.documents.size < (g.graft tree).1.documents.size
  | g, .node draft imports => by
    have h := size_le_graftImports (g.insert draft).1 (g.insert draft).2 imports
    rw [size_documents_insert] at h
    exact h

theorem size_le_graftImports : ∀ (g : Graph) (parent : DocumentId) (trees : List ImportTree),
    g.documents.size ≤ (g.graftImports parent trees).documents.size
  | _, _, [] => Nat.le_refl _
  | g, parent, tree :: later => by
    have h := size_lt_graft g tree
    have hlater :=
      size_le_graftImports ((g.graft tree).1.attach parent (g.graft tree).2) parent later
    rw [attach, Array.size_modify] at hlater
    exact Nat.le_trans (Nat.le_of_lt h) hlater

end

theorem size_le_graft (g : Graph) (tree : ImportTree) :
    g.documents.size ≤ (g.graft tree).1.documents.size := Nat.le_of_lt (size_lt_graft g tree)

/-- The root of a tree that was added numbers a document. -/
theorem index_graft_lt (g : Graph) (tree : ImportTree) :
    (g.graft tree).2.index < (g.graft tree).1.documents.size := by
  refine Nat.lt_of_le_of_lt ?_ (size_lt_graft g tree)
  rcases tree with ⟨draft, imports⟩
  exact Nat.min_le_left _ _

/-- The empty graph has the property of the drafts added and the graph, and adding a draft and
    recording an import of a document keep it. -/
structure Growing (P : List Draft → Graph → Prop) : Prop where
  empty : P [] {}
  insert : ∀ drafts g draft, P drafts g → P (drafts ++ [draft]) (g.insert draft).1
  attach : ∀ drafts g parent child, child.index < g.documents.size → P drafts g →
    P drafts (g.attach parent child)

section

variable {P : List Draft → Graph → Prop} (growing : Growing P)

include growing

mutual

/-- What adding a draft and recording an import of a document keep is kept by adding a tree, whose
    drafts are then all added. -/
theorem graft_induction : ∀ (tree : ImportTree) (drafts : List Draft) (g : Graph), P drafts g →
    P (drafts ++ tree.drafts) (g.graft tree).1
  | .node draft imports, drafts, g, h => by
    have := graftImports_induction imports _ _ (g.insert draft).2 (growing.insert drafts g draft h)
    rw [List.append_assoc] at this
    exact this

theorem graftImports_induction : ∀ (trees : List ImportTree) (drafts : List Draft) (g : Graph)
    (parent : DocumentId), P drafts g →
      P (drafts ++ ImportTree.draftsOf trees) (g.graftImports parent trees)
  | [], drafts, g, parent, h => by simpa [graftImports, ImportTree.draftsOf] using h
  | tree :: later, drafts, g, parent, h => by
    have hone := growing.attach _ _ parent (g.graft tree).2 (index_graft_lt g tree)
      (graft_induction tree drafts g h)
    have := graftImports_induction later _ _ parent hone
    rw [List.append_assoc] at this
    exact this

end

theorem ofTree_induction (tree : ImportTree) : P tree.drafts (ofTree tree) :=
  graft_induction growing tree [] {} growing.empty

end

theorem arranged_empty : Arranged {} := by
  refine ⟨?_, ?_, ?_, ?_, ?_⟩ <;> intros <;> simp_all

theorem arranged_ofTree {tree : ImportTree} (ha : (ofTree tree).Addressable) :
    (ofTree tree).Arranged := by
  refine ofTree_induction (P := fun _ g => g.Addressable → g.Arranged)
    ⟨fun _ => arranged_empty, ?_, ?_⟩ tree ha
  · intro _ g draft h ha
    refine arranged_insert (h ⟨?_, ?_⟩) ha
    · have := ha.1
      rw [size_documents_insert] at this
      omega
    · have := ha.2
      rw [size_declarations_insert] at this
      omega
  · intro _ g parent child _ h ha
    have hs := sameOutline_attach g parent child
    exact (h (hs.symm.addressable ha)).congr hs

/-- No usage is represented by a multiplexer, and there are none. -/
structure Unshared (g : Graph) : Prop where
  owned_multiplexers : ∀ d ∈ g.documents, d.multiplexers = []
  multiplexers : g.multiplexers = #[]
  names : g.multiplexerNames = []
  usages : g.multiplexerUsages = []

/-- Nothing depends on anything, and there are no multiplexers. -/
structure Bare (g : Graph) : Prop extends g.Unshared where
  dependencies : ∀ d ∈ g.documents, d.dependencies = {}

theorem bare_ofTree (tree : ImportTree) : (ofTree tree).Bare := by
  refine ofTree_induction (P := fun _ g => g.Bare)
    ⟨⟨⟨by simp, rfl, rfl, rfl⟩, by simp⟩, ?_, ?_⟩ tree
  · intro _ g draft h
    obtain ⟨_, _, _, _, _, hnew⟩ := g.exists_documentOf draft
    have hcases : ∀ d ∈ (g.insert draft).1.documents, d ∈ g.documents ∨ d = g.documentOf draft := by
      intro d hd
      rwa [documents_insert, Array.mem_push] at hd
    refine ⟨⟨fun d hd => ?_, h.multiplexers, h.names, h.usages⟩, fun d hd => ?_⟩
    · rcases hcases d hd with hd | rfl
      · exact h.owned_multiplexers d hd
      · rw [hnew]
    · rcases hcases d hd with hd | rfl
      · exact h.dependencies d hd
      · rw [hnew]
  · intro _ g parent child _ h
    have hcases : ∀ d ∈ (g.attach parent child).documents, ∃ d' ∈ g.documents,
        d.dependencies = d'.dependencies ∧ d.multiplexers = d'.multiplexers := by
      intro d hd
      obtain ⟨i, hi⟩ := Array.getElem?_of_mem hd
      rw [documents_attach] at hi
      split at hi
      · obtain ⟨d', hd', rfl⟩ := Option.map_eq_some_iff.1 hi
        exact ⟨d', Array.mem_of_getElem? hd', rfl, rfl⟩
      · exact ⟨d, Array.mem_of_getElem? hi, rfl, rfl⟩
    refine ⟨⟨fun d hd => ?_, h.multiplexers, h.names, h.usages⟩, fun d hd => ?_⟩
    · obtain ⟨d', hd', _, he⟩ := hcases d hd
      rw [he]
      exact h.owned_multiplexers d' hd'
    · obtain ⟨d', hd', he, _⟩ := hcases d hd
      rw [he]
      exact h.dependencies d' hd'

/-! ## Rows of documents -/

theorem size_documents_ofTree_ne (tree : ImportTree) : (ofTree tree).documents.size ≠ 0 := by
  rcases tree with ⟨draft, imports⟩
  have hle := size_le_graftImports (insert {} draft).1 (insert {} draft).2 imports
  rw [size_documents_insert] at hle
  have hpos : 0 < (graftImports (insert {} draft).1 (insert {} draft).2 imports).documents.size :=
    Nat.lt_of_lt_of_le (Nat.succ_pos _) hle
  exact Nat.pos_iff_ne_zero.1 hpos

mutual

/-- Adding a tree leaves the documents there were as they are, and puts the documents of the tree
    in a row after them. -/
theorem spans_graft : ∀ (tree : ImportTree) (g : Graph),
    (g.graft tree).1.documents.size ≤ maxIndex + 1 →
      (g.graft tree).1.Spans [(g.graft tree).2] g.documents.size
          (g.graft tree).1.documents.size ∧
        ∀ i < g.documents.size, (g.graft tree).1.documents[i]? = g.documents[i]?
  | .node draft imports, g, hmax => by
    have hsize := size_documents_insert g draft
    have hle := size_le_graftImports (g.insert draft).1 (g.insert draft).2 imports
    have hgraft : (g.graft (.node draft imports)).1 =
        (g.insert draft).1.graftImports (g.insert draft).2 imports := rfl
    have hid : (g.graft (.node draft imports)).2 = .ofIndex g.documents.size := rfl
    rw [hgraft] at hmax
    rw [hgraft, hid]
    have hn : (g.insert draft).2.index = g.documents.size :=
      Handle.index_ofIndex_of_le (by omega)
    obtain ⟨ids, hspans, hold⟩ := spans_graftImports imports (g.insert draft).1 (g.insert draft).2
      hmax (by omega)
    rw [hn] at hold
    refine ⟨?_, ?_⟩
    · refine .cons hn (d := { g.documentOf draft with
        imported := (g.documentOf draft).imported ++ ids }) ?_ ?_ (.nil _)
      · rw [hold _ (by omega), if_pos rfl, documents_insert, Array.getElem?_push_size]
        rfl
      · rw [← hsize]
        show Spans _ ((g.documentOf draft).imported ++ ids) _ _
        rw [show (g.documentOf draft).imported = [] from imported_documentOf g draft,
          List.nil_append]
        exact hspans
    · intro i hi
      rw [hold i (by omega), if_neg (by omega), documents_insert, Array.getElem?_push_lt hi,
        Array.getElem?_eq_getElem hi]

theorem spans_graftImports : ∀ (trees : List ImportTree) (g : Graph) (parent : DocumentId),
    (g.graftImports parent trees).documents.size ≤ maxIndex + 1 →
      parent.index < g.documents.size →
        ∃ ids, (g.graftImports parent trees).Spans ids g.documents.size
            (g.graftImports parent trees).documents.size ∧
          ∀ i < g.documents.size, (g.graftImports parent trees).documents[i]? =
            if i = parent.index then
              g.documents[i]?.map fun d => { d with imported := d.imported ++ ids }
            else g.documents[i]?
  | [], g, parent, _, _ => by
    refine ⟨[], .nil _, fun i _ => ?_⟩
    rw [graftImports]
    split <;> simp
  | tree :: later, g, parent, hmax, hparent => by
    have hrest : g.graftImports parent (tree :: later) =
        ((g.graft tree).1.attach parent (g.graft tree).2).graftImports parent later := rfl
    rw [hrest] at hmax ⊢
    have hsize : ((g.graft tree).1.attach parent (g.graft tree).2).documents.size =
        (g.graft tree).1.documents.size := by
      rw [attach, Array.size_modify]
    have hle := size_le_graft g tree
    have hle' := size_le_graftImports ((g.graft tree).1.attach parent (g.graft tree).2) parent later
    obtain ⟨hs, hold⟩ := spans_graft tree g (by omega)
    obtain ⟨ids, hs', hold'⟩ := spans_graftImports later
      ((g.graft tree).1.attach parent (g.graft tree).2) parent hmax (by omega)
    rw [hsize] at hs' hold'
    refine ⟨(g.graft tree).2 :: ids, ?_, ?_⟩
    · -- the row of the first tree is behind the parent, so what happens later does not touch it
      have hsame : (((g.graft tree).1.attach parent (g.graft tree).2).graftImports parent
          later).Spans [(g.graft tree).2] g.documents.size (g.graft tree).1.documents.size := by
        refine hs.congr fun e h₁ h₂ => ?_
        rw [hold' e h₂, if_neg (by omega), documents_attach, if_neg (by omega)]
      cases hsame with
      | cons hid hd hbelow hnil =>
        cases hnil
        exact .cons hid hd hbelow hs'
    · intro i hi
      rw [hold' i (by omega), documents_attach, hold i hi]
      by_cases h : i = parent.index
      · subst h
        simp [Function.comp_def]
      · rw [if_neg h, if_neg h, if_neg fun e => h e.symm]

end

theorem spans_ofTree {tree : ImportTree} (ha : (ofTree tree).Addressable) :
    (ofTree tree).Spans [.ofIndex 0] 0 (ofTree tree).documents.size := by
  have hs := (spans_graft tree {} ha.1).1
  have hid : (Graph.graft {} tree).2 = .ofIndex 0 := by
    cases tree
    rfl
  rw [hid] at hs
  exact hs

/-! ## Declarations of a tree -/

end Graph

/-- The usage with the handle of a declaration that stands inside it `count` places later. -/
def Usage.shiftInline (count : Nat) (u : Usage) : Usage :=
  { u with target := match u.target with
      | .inline id => .inline (.ofIndex (id.index + count))
      | .reference name resolved => .reference name resolved }

/-- The definition with the handles of its inline usages, of flags and in the model, `count` places
    later. -/
def Definition.shiftInline (count : Nat) (d : Definition) : Definition :=
  { d with body := match d.body with
      | .assembly body => .assembly { body with
          flags := body.flags.map (Usage.shiftInline count)
          model := body.model.map fun
            | .usage u => .usage (u.shiftInline count)
            | .choice members => .choice (members.map (Usage.shiftInline count))
            | .prose => .prose
            | .any => .any }
      | .field body => .field { body with flags := body.flags.map (Usage.shiftInline count) }
      | .flag body => .flag body }

theorem Usage.rebase_eq_shiftInline (count : Nat) (u : Usage) :
    u.rebase count = u.shiftInline count := by
  rcases u with ⟨kind, ⟨name, resolved⟩ | id⟩ <;> rfl

/-- Adding a draft shifts the handles of inline usages and nothing else. -/
theorem Definition.rebase_eq_shiftInline (count : Nat) (d : Definition) :
    d.rebase count = d.shiftInline count := by
  have hrebase : (fun u : Usage => u.rebase count) = Usage.shiftInline count :=
    funext fun u => u.rebase_eq_shiftInline count
  rw [rebase, hrebase]
  rcases d with ⟨name, metadata, body | body | body⟩
  · have hmodel : ModelItem.mapUsages (Usage.shiftInline count) = fun
        | .usage u => .usage (u.shiftInline count)
        | .choice members => .choice (members.map (Usage.shiftInline count))
        | .prose => .prose
        | .any => .any := by
      funext item
      cases item <;> rfl
    simp only [shiftInline, mapUsages, Body.mapFlags, Body.mapModel, hmodel]
  · rfl
  · rfl

/-- The declaration that definition number `place` of a draft becomes in the document `owner`, when
    `first` declarations come before those of the draft. -/
def Drafted.declaration (drafted : Drafted) (owner : DocumentId) (first place : Nat) :
    Declaration where
  id := .ofIndex (first + place)
  owner := owner
  scope := drafted.scope
  definition := drafted.definition.shiftInline first

theorem Graph.getElem?_placed_eq (owner : DocumentId) (first : Nat) (definitions : List Drafted)
    (place : Nat) : (placed owner first definitions)[place]? =
      definitions[place]?.map (·.declaration owner first place) := by
  rw [getElem?_placed]
  simp only [Drafted.declaration, Definition.rebase_eq_shiftInline]

/-- Number of the definitions of some drafts. -/
def definitionCount (drafts : List Draft) : Nat := (drafts.flatMap (·.definitions)).length

/-- In the draft number `document`, which `first` definitions of earlier drafts precede, `drafted`
    is the definition number `place`. -/
def DraftedAt (drafts : List Draft) (document first place : Nat) (drafted : Drafted) : Prop :=
  ∃ before draft after, drafts = before ++ draft :: after ∧ before.length = document ∧
    definitionCount before = first ∧ draft.definitions[place]? = some drafted

theorem definitionCount_append (drafts later : List Draft) :
    definitionCount (drafts ++ later) = definitionCount drafts + definitionCount later := by
  simp [definitionCount]

theorem DraftedAt.append {drafts : List Draft} {document first place : Nat} {drafted : Drafted}
    (h : DraftedAt drafts document first place drafted) (later : List Draft) :
    DraftedAt (drafts ++ later) document first place drafted := by
  obtain ⟨before, draft, after, rfl, hlen, hcount, hplace⟩ := h
  exact ⟨before, draft, after ++ later, by simp, hlen, hcount, hplace⟩

theorem DraftedAt.exists_draft {drafts : List Draft} {document first place : Nat}
    {drafted : Drafted} (h : DraftedAt drafts document first place drafted) :
    ∃ draft ∈ drafts, drafted ∈ draft.definitions := by
  obtain ⟨before, draft, after, rfl, _, _, hplace⟩ := h
  exact ⟨draft, by simp, List.mem_of_getElem? hplace⟩

namespace Graph

/-- The declarations are the definitions of the drafts, one draft after the other, and there is a
    document for each draft. -/
structure Numbers (drafts : List Draft) (g : Graph) : Prop where
  size_documents : g.documents.size = drafts.length
  size_declarations : g.declarations.size = definitionCount drafts
  origin : ∀ {i : Nat} {d : Declaration}, g.declarations[i]? = some d →
    ∃ document first place drafted, DraftedAt drafts document first place drafted ∧
      i = first + place ∧ d = drafted.declaration (.ofIndex document) first place

theorem Numbers.insert {drafts : List Draft} {g : Graph} (h : g.Numbers drafts) (draft : Draft) :
    (g.insert draft).1.Numbers (drafts ++ [draft]) := by
  refine ⟨?_, ?_, ?_⟩
  · rw [size_documents_insert, h.size_documents, List.length_append, List.length_singleton]
  · rw [size_declarations_insert, h.size_declarations, definitionCount_append]
    simp [definitionCount]
  · intro i d hd
    rw [declarations_insert, Array.getElem?_append] at hd
    split at hd
    · obtain ⟨document, first, place, drafted, hat, hi, rfl⟩ := h.origin hd
      exact ⟨document, first, place, drafted, hat.append [draft], hi, rfl⟩
    · next hi =>
      rw [List.getElem?_toArray, getElem?_placed_eq, Option.map_eq_some_iff] at hd
      obtain ⟨drafted, hdrafted, rfl⟩ := hd
      have hsum : g.declarations.size + (i - g.declarations.size) = i := by omega
      refine ⟨drafts.length, g.declarations.size, i - g.declarations.size, drafted, ?_,
        hsum.symm, ?_⟩
      · exact ⟨drafts, draft, [], rfl, rfl, h.size_declarations.symm, hdrafted⟩
      · rw [h.size_documents]

theorem numbers_ofTree (tree : ImportTree) : (ofTree tree).Numbers tree.drafts := by
  refine ofTree_induction (P := fun drafts g => g.Numbers drafts)
    ⟨⟨rfl, rfl, fun hd => by simp at hd⟩, ?_, ?_⟩ tree
  · intro drafts g draft h
    exact h.insert draft
  · intro drafts g parent child _ h
    refine ⟨?_, h.size_declarations, h.origin⟩
    rw [attach, Array.size_modify, h.size_documents]

theorem fresh_ofTree {tree : ImportTree} (hf : ∀ draft ∈ tree.drafts, draft.Fresh) :
    ∀ d ∈ (ofTree tree).declarations, d.definition.Fresh := by
  intro d hd
  obtain ⟨i, hi⟩ := Array.getElem?_of_mem hd
  obtain ⟨document, first, place, drafted, hat, _, rfl⟩ := (numbers_ofTree tree).origin hi
  obtain ⟨draft, hdraft, hm⟩ := hat.exists_draft
  rw [Drafted.declaration, ← Definition.rebase_eq_shiftInline]
  exact (hf draft hdraft drafted hm).rebase first

end Graph

end SchemaFamily
