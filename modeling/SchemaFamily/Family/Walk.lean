import SchemaFamily.Family.Graph

/-
  Walks over imports. From a document a walk follows the imports in order, depth first, and takes
  a document as often as there are ways to it. `preorder` takes a document before what it imports
  and `postorder` after. A handle without a document, and a document that is on the way to itself,
  stand in the walk as what they are and lead no further, so every walk ends
  (`unwalked_lt`). A name is looked up in the documents of `preorder`, and the first that knows it
  decides.
-/

namespace SchemaFamily.Graph

/-- Number of documents that are not on the way. -/
def unwalked (g : Graph) (way : List DocumentId) : Nat :=
  ((List.range g.documents.size).filter fun i => !way.any (·.index == i)).length

theorem length_filter_lt {α : Type} {p q : α → Bool} {xs : List α} (h : ∀ x, q x → p x) {a : α}
    (ha : a ∈ xs) (hp : p a = true) (hq : q a = false) :
    (xs.filter q).length < (xs.filter p).length := by
  induction xs with
  | nil => cases ha
  | cons x xs ih =>
    have hle : (xs.filter q).length ≤ (xs.filter p).length := by
      simpa only [List.countP_eq_length_filter] using List.countP_mono_left fun x _ => h x
    rcases List.mem_cons.1 ha with rfl | ha
    · simp only [List.filter_cons, hp, hq, if_true, List.length_cons]
      simp only [Bool.false_eq_true, if_false]
      omega
    · have := ih ha
      simp only [List.filter_cons]
      cases hx : q x with
      | true => simp only [h x hx, if_true, List.length_cons]; omega
      | false =>
        simp only [Bool.false_eq_true, if_false]
        split
        · simp only [List.length_cons]; omega
        · exact this

theorem unwalked_lt {g : Graph} {way : List DocumentId} {id : DocumentId} {d : Document}
    (hd : g.documents[id.index]? = some d) (hw : id ∉ way) :
    g.unwalked (id :: way) < g.unwalked way := by
  apply length_filter_lt (a := id.index)
  · intro i hi
    simp only [List.any_cons, Bool.not_or, Bool.and_eq_true] at hi
    exact hi.2
  · exact List.mem_range.2 (Array.getElem?_eq_some_iff.1 hd).1
  · simp only [Bool.not_eq_true', List.any_eq_false, beq_iff_eq]
    intro other ho he
    exact hw (Handle.ext he ▸ ho)
  · simp

/-- The walk from `id` that takes a document before its imports; `way` leads to `id`. -/
def preorderFrom (g : Graph) (way : List DocumentId) (id : DocumentId) :
    List (Except Dangling Document) :=
  match _h : g.documents[id.index]? with
  | none => [.error (.document id)]
  | some d =>
    if _hw : id ∈ way then [.error (.circular id)]
    else .ok d :: d.imported.flatMap fun child => g.preorderFrom (id :: way) child
termination_by g.unwalked way
decreasing_by exact unwalked_lt _h _hw

/-- The documents that a document reaches, each before its imports. -/
def preorder (g : Graph) (id : DocumentId) : List (Except Dangling Document) :=
  g.preorderFrom [] id

/-- The walk from `id` that takes a document after its imports; `way` leads to `id`. -/
def postorderFrom (g : Graph) (way : List DocumentId) (id : DocumentId) :
    List (Except Dangling DocumentId) :=
  match _h : g.documents[id.index]? with
  | none => [.error (.document id)]
  | some d =>
    if _hw : id ∈ way then [.error (.circular id)]
    else (d.imported.flatMap fun child => g.postorderFrom (id :: way) child) ++ [.ok id]
termination_by g.unwalked way
decreasing_by exact unwalked_lt _h _hw

/-- What the steps of a walk took, when none of them failed. -/
def collect {α : Type} : List (Except Dangling α) → Except Dangling (List α)
  | [] => .ok []
  | .error dangling :: _ => .error dangling
  | .ok a :: later => (collect later).map (a :: ·)

/-- The documents that a document reaches, each after its imports. -/
def postorder (g : Graph) (id : DocumentId) : Except Dangling (List DocumentId) :=
  collect (g.postorderFrom [] id)

/-- What the first document of a walk that knows a kind and a name has under them. -/
def firstKnown (kind : Kind) (name : String) :
    List (Except Dangling Document) → Except Dangling (Option DeclarationId)
  | [] => .ok none
  | .error dangling :: _ => .error dangling
  | .ok d :: later =>
    match d.globals.get? kind name with
    | some id => .ok (some id)
    | none => firstKnown kind name later

/-- What a kind and a name stand for in a document: its own globals come first, then those of its
    imports in order. -/
def lookup (g : Graph) (id : DocumentId) (kind : Kind) (name : String) :
    Except Dangling (Option DeclarationId) :=
  firstKnown kind name (g.preorder id)

end SchemaFamily.Graph
