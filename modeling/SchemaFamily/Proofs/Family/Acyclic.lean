import Mathlib.Data.Fintype.EquivFin
import SchemaFamily.Proofs.Family.Walks

/-
  Acyclic imports. Where imports lead from no document back to it, whatever the handles are and
  however often a document is imported, a walk never meets a document on the way to itself, so what
  is on the way does not count (`Acyclic.walk_eq`). Looking up a name and taking documents after
  their imports are then the plain recursions over imports (`Acyclic.lookup_eq`,
  `Acyclic.postorder_eq`), which end because there are finitely many handles
  (`Acyclic.wellFounded`).
-/

namespace SchemaFamily

instance {arena : Arena} : Finite (Handle arena) :=
  Finite.of_injective (fun h => (⟨h.index, Nat.lt_succ_of_le h.index_le⟩ : Fin (maxIndex + 1)))
    fun _ _ h => Handle.ext (congrArg Fin.val h)

namespace Graph

open Relation

variable {g : Graph}

/-! ## Imports -/

/-- What the document of a handle imports, in order. -/
def importsOf (g : Graph) (id : DocumentId) : List DocumentId :=
  match g.documents[id.index]? with
  | some d => d.imported
  | none => []

theorem importsOf_of_getElem? {id : DocumentId} {d : Document}
    (h : g.documents[id.index]? = some d) : g.importsOf id = d.imported := by
  rw [importsOf, h]

theorem importsOf_of_none {id : DocumentId} (h : g.documents[id.index]? = none) :
    g.importsOf id = [] := by
  rw [importsOf, h]

theorem importsDocument_iff {a b : DocumentId} : g.ImportsDocument a b ↔ b ∈ g.importsOf a := by
  rw [ImportsDocument, importsOf]
  cases g.documents[a.index]? <;> simp

/-- The handle, unless it numbers no document. -/
def taken (g : Graph) (id : DocumentId) : Except Dangling DocumentId :=
  (g.document id).map fun _ => id

/-- Imports lead from no document back to it. -/
def Acyclic (g : Graph) : Prop := ∀ id, ¬ TransGen g.ImportsDocument id id

namespace Acyclic

/-- There are finitely many handles, so following imports ends. -/
theorem wellFounded (h : g.Acyclic) : WellFounded (Function.swap g.ImportsDocument) := by
  have : IsTrans DocumentId (TransGen (Function.swap g.ImportsDocument)) := ⟨fun _ _ _ => .trans⟩
  have : Std.Irrefl (TransGen (Function.swap g.ImportsDocument)) :=
    ⟨fun id hid => h id (transGen_swap.1 hid)⟩
  exact Subrelation.wf TransGen.single (Finite.wellFounded_of_trans_of_irrefl
    (TransGen (Function.swap g.ImportsDocument)))

/-! ## Walks -/

/-- What is on the way does not count: nothing on it is met again. -/
theorem walk_eq {α : Type} (h : g.Acyclic) (walk : List DocumentId → DocumentId → List α)
    (around : DocumentId → List α → List α)
    (hnone : ∀ {way id}, g.documents[id.index]? = none → walk way id = around id [])
    (hsome : ∀ {way id d}, g.documents[id.index]? = some d → id ∉ way →
      walk way id = around id (d.imported.flatMap (walk (id :: way))))
    {way : List DocumentId} {id : DocumentId}
    (hway : ∀ before ∈ way, TransGen g.ImportsDocument before id) :
    walk way id = around id ((g.importsOf id).flatMap (walk [])) := by
  induction id using h.wellFounded.induction generalizing way with
  | _ id ih =>
    cases hd : g.documents[id.index]? with
    | none =>
      rw [hnone hd, importsOf_of_none hd]
      rfl
    | some d =>
      rw [hsome hd fun hmem => h id (hway id hmem), importsOf_of_getElem? hd]
      congr 1
      refine List.flatMap_congr fun child hchild => ?_
      have himport : g.ImportsDocument id child := ⟨d, hd, hchild⟩
      rw [ih child himport, ih child himport]
      · intro before hbefore
        cases hbefore
      · intro before hbefore
        rcases List.mem_cons.1 hbefore with rfl | hbefore
        · exact .single himport
        · exact (hway before hbefore).tail himport

theorem preorder_eq (h : g.Acyclic) (id : DocumentId) :
    g.preorder id = g.document id :: (g.importsOf id).flatMap g.preorder := by
  refine h.walk_eq g.preorderFrom (fun id below => g.document id :: below) (fun hd => ?_)
    (fun hd hway => ?_) (fun _ => nofun)
  · rw [preorderFrom_of_none hd, document, hd]
  · rw [preorderFrom_of_getElem? hd hway, document_of_getElem? hd]

theorem postorderFrom_eq (h : g.Acyclic) (id : DocumentId) :
    g.postorderFrom [] id = (g.importsOf id).flatMap (g.postorderFrom []) ++ [g.taken id] := by
  refine h.walk_eq g.postorderFrom (fun id below => below ++ [g.taken id]) (fun hd => ?_)
    (fun hd hway => ?_) (fun _ => nofun)
  · rw [postorderFrom_of_none hd, taken, document, hd]
    rfl
  · rw [postorderFrom_of_getElem? hd hway, taken, document_of_getElem? hd]
    rfl

end Acyclic

/-! ## Answers and lists, import by import -/

section

variable {α β : Type} {kind : Kind} {name : String}

theorem firstKnown_append (walk later : List (Except Dangling Document)) :
    firstKnown kind name (walk ++ later) = (do
      match ← firstKnown kind name walk with
      | some id => return some id
      | none => firstKnown kind name later) := by
  induction walk with
  | nil => rfl
  | cons step walk ih =>
    cases step with
    | error dangling => rfl
    | ok d =>
      rw [List.cons_append, firstKnown, firstKnown]
      cases d.globals.get? kind name with
      | some id => rfl
      | none => exact ih

/-- The first walk in which the name is known decides. -/
theorem firstKnown_flatMap (f : α → List (Except Dangling Document)) (as : List α) :
    firstKnown kind name (as.flatMap f) =
      as.findSomeM? fun a => firstKnown kind name (f a) := by
  induction as with
  | nil => rfl
  | cons a later ih =>
    rw [List.flatMap_cons, firstKnown_append, List.findSomeM?, ih]
    refine congrArg (firstKnown kind name (f a) >>= ·) (funext fun known => ?_)
    cases known <;> rfl

theorem collect_append (steps later : List (Except Dangling β)) :
    collect (steps ++ later) = (do
      let bs ← collect steps
      let more ← collect later
      return bs ++ more) := by
  induction steps with
  | nil => cases h : collect later <;> simp [collect, h, bind, Except.bind, pure, Except.pure]
  | cons step steps ih =>
    cases step with
    | error dangling => rfl
    | ok b =>
      rw [List.cons_append, collect, collect, ih]
      cases collect steps with
      | error dangling => rfl
      | ok bs => cases collect later <;> rfl

theorem collect_flatMap (f : α → List (Except Dangling β)) (as : List α) :
    collect (as.flatMap f) = (as.mapM fun a => collect (f a)).map List.flatten := by
  induction as with
  | nil => rfl
  | cons a later ih =>
    rw [List.flatMap_cons, collect_append, ih, List.mapM_cons]
    cases collect (f a) with
    | error dangling => rfl
    | ok bs => cases List.mapM (fun a => collect (f a)) later <;> rfl

end

namespace Acyclic

/-- A name is looked up in the globals of the document, then in one import after the other. -/
theorem lookup_eq (h : g.Acyclic) (id : DocumentId) (kind : Kind) (name : String) :
    g.lookup id kind name = (do
      let d ← g.document id
      match d.globals.get? kind name with
      | some known => return some known
      | none => d.imported.findSomeM? fun child => g.lookup child kind name) := by
  rw [lookup, h.preorder_eq]
  cases hd : g.document id with
  | error dangling => rfl
  | ok d =>
    rw [firstKnown, importsOf_of_getElem? (getElem?_of_document hd), firstKnown_flatMap]
    rfl

/-- What one import after the other takes is taken before the document. -/
theorem postorder_eq (h : g.Acyclic) (id : DocumentId) :
    g.postorder id = (do
      let d ← g.document id
      let below ← d.imported.mapM g.postorder
      return below.flatten ++ [id]) := by
  rw [postorder, h.postorderFrom_eq, collect_append, collect_flatMap, taken]
  cases hd : g.document id with
  | error dangling =>
    have hnone : g.documents[id.index]? = none := by
      unfold document at hd
      split at hd
      · cases hd
      · next hnone => exact hnone
    rw [importsOf_of_none hnone]
    rfl
  | ok d =>
    rw [importsOf_of_getElem? (getElem?_of_document hd)]
    show (d.imported.mapM g.postorder).map List.flatten >>= _ = d.imported.mapM g.postorder >>= _
    cases d.imported.mapM g.postorder <;> rfl

end Acyclic

end Graph

end SchemaFamily
