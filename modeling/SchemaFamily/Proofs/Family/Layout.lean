import Mathlib.Data.List.Basic
import SchemaFamily.Proofs.Family.Numbering

/-
  What a tree adds to a graph. `ImportTree.documents` and `ImportTree.declarations` write it down,
  given how many documents and declarations there were before: each document before those that it
  imports, with the handles of what it imports, and the declarations of each in one piece. Adding
  a tree appends exactly this (`layout_graft`), so a family is what its tree writes down
  (`documents_ofTree`, `declarations_ofTree`).
-/

namespace SchemaFamily

/-- The document that a draft becomes when its declarations are numbered from `first` on. -/
def Draft.document (draft : Draft) (id : DocumentId) (first : Nat) : Document :=
  (Graph.placed id first draft.definitions).foldl Document.adopt
    { id, header := draft.header, imports := draft.imports }

theorem Draft.exists_document (draft : Draft) (id : DocumentId) (first : Nat) :
    ∃ assemblies fields flags inline globals, draft.document id first =
      { id, header := draft.header, imports := draft.imports, assemblies, fields, flags, inline,
        globals } :=
  Document.exists_foldl_adopt _ _

namespace ImportTree

/-! ## What a tree adds -/

/-- The handles of the roots of some trees whose documents are numbered from `i` on. -/
def roots (i : Nat) : List ImportTree → List DocumentId
  | [] => []
  | tree :: later => .ofIndex i :: roots (i + tree.drafts.length) later

mutual

/-- The documents of a tree, numbered from `i` on, their declarations from `first` on. -/
def documents (i first : Nat) : ImportTree → List Document
  | .node draft imports =>
    { draft.document (.ofIndex i) first with imported := roots (i + 1) imports } ::
      documentsOf (i + 1) (first + draft.definitions.length) imports

/-- The documents of several trees, one after the other. -/
def documentsOf (i first : Nat) : List ImportTree → List Document
  | [] => []
  | tree :: later =>
    tree.documents i first ++
      documentsOf (i + tree.drafts.length) (first + definitionCount tree.drafts) later

end

mutual

/-- The declarations of a tree, numbered from `first` on, of documents numbered from `i` on. -/
def declarations (i first : Nat) : ImportTree → List Declaration
  | .node draft imports =>
    Graph.placed (.ofIndex i) first draft.definitions ++
      declarationsOf (i + 1) (first + draft.definitions.length) imports

/-- The declarations of several trees, one after the other. -/
def declarationsOf (i first : Nat) : List ImportTree → List Declaration
  | [] => []
  | tree :: later =>
    tree.declarations i first ++
      declarationsOf (i + tree.drafts.length) (first + definitionCount tree.drafts) later

end

/-! ## Sizes -/

theorem length_draftsOf_append (trees later : List ImportTree) :
    (draftsOf (trees ++ later)).length = (draftsOf trees).length + (draftsOf later).length := by
  induction trees with
  | nil => simp [draftsOf]
  | cons tree more ih =>
    simp only [List.cons_append, draftsOf, List.length_append, ih]
    omega

theorem definitionCount_cons (draft : Draft) (drafts : List Draft) :
    definitionCount (draft :: drafts) = draft.definitions.length + definitionCount drafts := by
  simp [definitionCount]

mutual

theorem length_documents : ∀ (tree : ImportTree) (i first : Nat),
    (tree.documents i first).length = tree.drafts.length
  | .node draft imports, i, first => by
    rw [documents, drafts, List.length_cons, List.length_cons, length_documentsOf]

theorem length_documentsOf : ∀ (trees : List ImportTree) (i first : Nat),
    (documentsOf i first trees).length = (draftsOf trees).length
  | [], i, first => rfl
  | tree :: later, i, first => by
    rw [documentsOf, draftsOf, List.length_append, List.length_append, length_documents,
      length_documentsOf]

end

mutual

theorem length_declarations : ∀ (tree : ImportTree) (i first : Nat),
    (tree.declarations i first).length = definitionCount tree.drafts
  | .node draft imports, i, first => by
    rw [declarations, drafts, List.length_append, Graph.length_placed, length_declarationsOf,
      definitionCount_cons]

theorem length_declarationsOf : ∀ (trees : List ImportTree) (i first : Nat),
    (declarationsOf i first trees).length = definitionCount (draftsOf trees)
  | [], i, first => rfl
  | tree :: later, i, first => by
    rw [declarationsOf, draftsOf, List.length_append, definitionCount_append, length_declarations,
      length_declarationsOf]

end

/-! ## Several trees -/

variable (trees later : List ImportTree)

theorem documentsOf_append (i first : Nat) :
    documentsOf i first (trees ++ later) =
      documentsOf i first trees ++ documentsOf (i + (draftsOf trees).length)
        (first + definitionCount (draftsOf trees)) later := by
  induction trees generalizing i first with
  | nil => rfl
  | cons tree more ih =>
    rw [List.cons_append, documentsOf, ih, documentsOf, List.append_assoc, draftsOf,
      List.length_append, definitionCount_append, Nat.add_assoc, Nat.add_assoc]

theorem declarationsOf_append (i first : Nat) :
    declarationsOf i first (trees ++ later) =
      declarationsOf i first trees ++ declarationsOf (i + (draftsOf trees).length)
        (first + definitionCount (draftsOf trees)) later := by
  induction trees generalizing i first with
  | nil => rfl
  | cons tree more ih =>
    rw [List.cons_append, declarationsOf, ih, declarationsOf, List.append_assoc, draftsOf,
      List.length_append, definitionCount_append, Nat.add_assoc, Nat.add_assoc]

theorem getElem?_roots (i k : Nat) :
    (roots i trees)[k]? =
      trees[k]?.map fun _ => .ofIndex (i + (draftsOf (trees.take k)).length) := by
  induction trees generalizing i k with
  | nil => rfl
  | cons tree more ih =>
    cases k with
    | zero => rfl
    | succ k =>
      rw [roots, List.getElem?_cons_succ, ih, List.getElem?_cons_succ, List.take_succ_cons,
        draftsOf, List.length_append, Nat.add_assoc]

theorem length_roots (i : Nat) : (roots i trees).length = trees.length := by
  induction trees generalizing i with
  | nil => rfl
  | cons tree more ih => rw [roots, List.length_cons, List.length_cons, ih]

end ImportTree

/-! ## Adding a tree -/

namespace Graph

open ImportTree

theorem documents_insert_toList (g : Graph) (draft : Draft) :
    (g.insert draft).1.documents.toList =
      g.documents.toList ++ [draft.document (.ofIndex g.documents.size) g.declarations.size] := by
  rw [documents_insert, Array.toList_push]
  rfl

theorem declarations_insert_toList (g : Graph) (draft : Draft) :
    (g.insert draft).1.declarations.toList = g.declarations.toList ++
      placed (.ofIndex g.documents.size) g.declarations.size draft.definitions := by
  rw [declarations_insert, Array.toList_append]

theorem modify_append_of_lt {α : Type} {f : α → α} {as : List α} {i : Nat} (h : i < as.length)
    (later : List α) : (as ++ later).modify i f = as.modify i f ++ later := by
  induction as generalizing i with
  | nil => cases h
  | cons a more ih =>
    cases i with
    | zero => rfl
    | succ i =>
      rw [List.cons_append, List.modify_succ_cons, ih (Nat.lt_of_succ_lt_succ h)]
      rfl

theorem modify_append_singleton {α : Type} {as : List α} {i : Nat} (h : as.length = i) (f : α → α)
    (a : α) : (as ++ [a]).modify i f = as ++ [f a] := by
  subst h
  induction as with
  | nil => rfl
  | cons a' more ih =>
    rw [List.cons_append, List.length_cons, List.modify_succ_cons, ih]
    rfl

mutual

/-- Adding a tree appends its documents and its declarations. -/
theorem layout_graft : ∀ (tree : ImportTree) (g : Graph),
    (g.graft tree).1.documents.size ≤ maxIndex + 1 →
      (g.graft tree).1.documents.toList =
          g.documents.toList ++ tree.documents g.documents.size g.declarations.size ∧
        (g.graft tree).1.declarations.toList =
          g.declarations.toList ++ tree.declarations g.documents.size g.declarations.size
  | .node draft imports, g, hmax => by
    have hgraft : (g.graft (.node draft imports)).1 =
        (g.insert draft).1.graftImports (.ofIndex g.documents.size) imports := rfl
    have hle := size_le_graftImports (g.insert draft).1 (.ofIndex g.documents.size) imports
    have hsize := size_documents_insert g draft
    rw [hgraft] at hmax ⊢
    have hn : (Handle.ofIndex g.documents.size : DocumentId).index = g.documents.size :=
      Handle.index_ofIndex_of_le (by omega)
    obtain ⟨hdocs, hdecls⟩ := layout_graftImports imports (g.insert draft).1
      (.ofIndex g.documents.size) hmax (by omega)
    refine ⟨?_, ?_⟩
    · have himported : (draft.document (.ofIndex g.documents.size) g.declarations.size).imported =
          [] := g.imported_documentOf draft
      rw [hdocs, hn, documents_insert_toList, hsize, size_declarations_insert,
        modify_append_singleton Array.length_toList, himported, List.append_assoc]
      rfl
    · rw [hdecls, declarations_insert_toList, hsize, size_declarations_insert,
        ImportTree.declarations, List.append_assoc]

theorem layout_graftImports : ∀ (trees : List ImportTree) (g : Graph) (parent : DocumentId),
    (g.graftImports parent trees).documents.size ≤ maxIndex + 1 →
      parent.index < g.documents.size →
        (g.graftImports parent trees).documents.toList =
            g.documents.toList.modify parent.index (fun d =>
              { d with imported := d.imported ++ roots g.documents.size trees }) ++
              ImportTree.documentsOf g.documents.size g.declarations.size trees ∧
          (g.graftImports parent trees).declarations.toList = g.declarations.toList ++
            ImportTree.declarationsOf g.documents.size g.declarations.size trees
  | [], g, parent, _, _ => by
    have hid : (fun d : Document => { d with imported := d.imported ++ [] }) = id := by
      funext d
      rw [List.append_nil]
      rfl
    refine ⟨?_, (List.append_nil _).symm⟩
    rw [roots, hid, List.modify_id, ImportTree.documentsOf, List.append_nil]
    rfl
  | tree :: later, g, parent, hmax, hparent => by
    have hrest : g.graftImports parent (tree :: later) =
        ((g.graft tree).1.attach parent (g.graft tree).2).graftImports parent later := rfl
    rw [hrest] at hmax ⊢
    have hsize : ((g.graft tree).1.attach parent (g.graft tree).2).documents.size =
        (g.graft tree).1.documents.size := by
      rw [attach, Array.size_modify]
    have hle := size_le_graft g tree
    have hle' := size_le_graftImports ((g.graft tree).1.attach parent (g.graft tree).2) parent later
    obtain ⟨hdocs, hdecls⟩ := layout_graft tree g (by omega)
    obtain ⟨hdocs', hdecls'⟩ := layout_graftImports later
      ((g.graft tree).1.attach parent (g.graft tree).2) parent hmax (by omega)
    have hchild : (g.graft tree).2 = .ofIndex g.documents.size := by
      cases tree
      rfl
    have hdocsSize : (g.graft tree).1.documents.size =
        g.documents.size + tree.drafts.length := by
      rw [← Array.length_toList, hdocs, List.length_append, length_documents, Array.length_toList]
    have hdeclsSize : (g.graft tree).1.declarations.size =
        g.declarations.size + definitionCount tree.drafts := by
      rw [← Array.length_toList, hdecls, List.length_append, length_declarations,
        Array.length_toList]
    have hattached : ((g.graft tree).1.attach parent (g.graft tree).2).documents.toList =
        g.documents.toList.modify parent.index (fun d =>
          { d with imported := d.imported ++ [.ofIndex g.documents.size] }) ++
          tree.documents g.documents.size g.declarations.size := by
      rw [attach, Array.toList_modify, hdocs, hchild, modify_append_of_lt (by simpa using hparent)]
    refine ⟨?_, ?_⟩
    · rw [hdocs', hattached, hsize, hdocsSize, modify_append_of_lt (by simpa using hparent),
        List.modify_modify_eq, List.append_assoc]
      have hdeclsSize' : ((g.graft tree).1.attach parent (g.graft tree).2).declarations.size =
          g.declarations.size + definitionCount tree.drafts := hdeclsSize
      rw [hdeclsSize']
      simp only [Function.comp_def, List.append_assoc]
      rfl
    · have hdeclsSize' : ((g.graft tree).1.attach parent (g.graft tree).2).declarations.size =
          g.declarations.size + definitionCount tree.drafts := hdeclsSize
      rw [hdecls', hsize, hdocsSize, hdeclsSize']
      show (g.graft tree).1.declarations.toList ++ _ = _
      rw [hdecls, List.append_assoc]
      rfl

end

theorem documents_ofTree {tree : ImportTree} (ha : (ofTree tree).Addressable) :
    (ofTree tree).documents.toList = tree.documents 0 0 := (layout_graft tree {} ha.1).1

theorem declarations_ofTree {tree : ImportTree} (ha : (ofTree tree).Addressable) :
    (ofTree tree).declarations.toList = tree.declarations 0 0 := (layout_graft tree {} ha.1).2

end Graph

end SchemaFamily
