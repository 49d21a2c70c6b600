import SchemaFamily.Family.Failure

/-
  Passes over a graph. A pass changes a graph step by step and gives a result or a failure; what
  was changed before a failure stays changed. `total` runs a pass on each item of a list and adds
  up the results, up to the first failure.
-/

namespace SchemaFamily

/-- A change of a graph with a result or a failure. -/
abbrev Pass := ExceptT Failure (StateM Graph)

namespace Pass

/-- What a pass makes of a graph: its result or failure, and the graph. -/
def apply {α : Type} (p : Pass α) (g : Graph) : Except Failure α × Graph := (ExceptT.run p).run g

/-- Asks something of the graph as it is. -/
def ask {α : Type} (f : Graph → Except Dangling α) : Pass α := do
  match f (← get) with
  | .ok a => return a
  | .error handle => throw (.dangling handle)

/-- Changes the graph, unless that fails. -/
def change (f : Graph → Except Dangling Graph) : Pass Unit := do
  match f (← get) with
  | .ok g => set g
  | .error handle => throw (.dangling handle)

/-- The sum of the results on a list. -/
def total {α : Type} (p : α → Pass Nat) : List α → Pass Nat
  | [] => return 0
  | a :: later => do
    let n ← p a
    let m ← total p later
    return n + m

@[simp]
theorem apply_pure {α : Type} (a : α) (g : Graph) : (pure a : Pass α).apply g = (.ok a, g) := rfl

@[simp]
theorem apply_throw {α : Type} (f : Failure) (g : Graph) :
    (throw f : Pass α).apply g = (.error f, g) := rfl

theorem apply_bind {α β : Type} (p : Pass α) (q : α → Pass β) (g : Graph) :
    (p >>= q).apply g =
      match p.apply g with
      | (.ok a, g) => (q a).apply g
      | (.error f, g) => (.error f, g) := by
  show (ExceptT.bindCont q (p g).1) (p g).2 = _
  unfold apply
  show _ = match p g with
    | (.ok a, g) => _
    | (.error f, g) => _
  rcases p g with ⟨_ | _, _⟩ <;> rfl

theorem apply_ask {α : Type} (f : Graph → Except Dangling α) (g : Graph) :
    (ask f).apply g = (match f g with
      | .ok a => .ok a
      | .error handle => .error (.dangling handle), g) := by
  show (match f g with | .ok a => _ | .error handle => _ : Pass α).apply g = _
  cases f g <;> rfl

theorem apply_change (f : Graph → Except Dangling Graph) (g : Graph) :
    (change f).apply g = match f g with
      | .ok g' => (.ok (), g')
      | .error handle => (.error (.dangling handle), g) := by
  show (match f g with | .ok a => _ | .error handle => _ : Pass Unit).apply g = _
  cases f g <;> rfl

end Pass

end SchemaFamily
