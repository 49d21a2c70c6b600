import SchemaFamily.Proofs.Family.Drafts
import SchemaFamily.Proofs.Family.Runs

/-
  Out of range. A handle that numbers nothing is a failure of its own (`OutOfRange`). A pass is
  `Safe` when it looks up no such handle, and the rules tell at each step what is known of the
  handles to come. No search for files fails for such a handle (`loadsInRange_resolve`).
-/

namespace SchemaFamily

/-! ## Out of range -/

/-- The handle numbers nothing. A document on the way to itself has a number. -/
def Dangling.OutOfRange : Dangling → Prop
  | .document _ | .declaration _ | .multiplexer _ => True
  | .circular _ => False

/-- The failure is that of a handle that numbers nothing. -/
def Failure.OutOfRange : Failure → Prop
  | .dangling handle => handle.OutOfRange
  | _ => False

/-- Every handle that was looked up numbers something. -/
def InRange {α : Type} (x : Except Dangling α) : Prop :=
  ∀ handle, x = .error handle → ¬ handle.OutOfRange

theorem InRange.ok {α : Type} (a : α) : InRange (.ok a) := by
  intro handle h
  cases h

theorem InRange.error_iff {α : Type} {handle : Dangling} :
    InRange (.error handle : Except Dangling α) ↔ ¬ handle.OutOfRange := by
  refine ⟨fun h => h handle rfl, fun h handle' he => ?_⟩
  cases he
  exact h

theorem InRange.of_eq_ok {α : Type} {x : Except Dangling α} {a : α} (h : x = .ok a) :
    InRange x := by
  rw [h]
  exact .ok a

namespace Pass

/-- On a graph as `P` says, the pass looks up nothing out of range, and when it ends with a result,
    the result and the graph are as `Q` says. -/
def Safe {α : Type} (P : Graph → Prop) (p : Pass α) (Q : α → Graph → Prop) : Prop :=
  ∀ g, P g → (∀ failure g', p.apply g = (.error failure, g') → ¬ failure.OutOfRange) ∧
    ∀ a g', p.apply g = (.ok a, g') → Q a g'

namespace Safe

variable {α β : Type} {P : Graph → Prop} {Q : α → Graph → Prop} {R : β → Graph → Prop}

theorem pure {a : α} (h : ∀ g, P g → Q a g) : Safe P (Pure.pure a) Q := by
  refine fun g hg => ⟨fun failure g' happly => ?_, fun b g' happly => ?_⟩
  · cases happly
  · cases happly
    exact h g hg

theorem throw {failure : Failure} (h : ¬ failure.OutOfRange) :
    Safe P (MonadExcept.throw failure) Q := by
  refine fun g _ => ⟨fun failure' g' happly => ?_, fun b g' happly => ?_⟩
  · cases happly
    exact h
  · cases happly

theorem bind {p : Pass α} {q : α → Pass β} (hp : Safe P p Q) (hq : ∀ a, Safe (Q a) (q a) R) :
    Safe P (p >>= q) R := by
  intro g hg
  obtain ⟨hfails, hends⟩ := hp g hg
  rw [apply_bind]
  rcases h : p.apply g with ⟨failure | a, g₁⟩
  · refine ⟨fun failure' g' happly => ?_, fun b g' happly => ?_⟩
    · cases happly
      exact hfails failure g₁ h
    · cases happly
  · exact hq a g₁ (hends a g₁ h)

theorem weaken {P' : Graph → Prop} {p : Pass α} (hp : Safe P p Q) (h : ∀ g, P' g → P g) :
    Safe P' p Q := fun g hg => hp g (h g hg)

/-- What is asked is true of the graph as it is. -/
theorem ask {f : Graph → Except Dangling α} (hf : ∀ g, P g → InRange (f g)) :
    Safe P (Pass.ask f) fun a g => P g ∧ f g = .ok a := by
  intro g hg
  rw [apply_ask]
  have hrange := hf g hg
  cases h : f g with
  | error handle =>
    refine ⟨fun failure g' happly => ?_, fun b g' happly => ?_⟩
    · cases happly
      exact hrange handle h
    · cases happly
  | ok a =>
    refine ⟨fun failure g' happly => ?_, fun b g' happly => ?_⟩
    · cases happly
    · cases happly
      exact ⟨hg, h⟩

theorem change {f : Graph → Except Dangling Graph} {Q : Unit → Graph → Prop}
    (hf : ∀ g, P g → ∃ g', f g = .ok g' ∧ Q () g') : Safe P (Pass.change f) Q := by
  intro g hg
  obtain ⟨g', h, hq⟩ := hf g hg
  rw [apply_change, h]
  refine ⟨fun failure g'' happly => ?_, fun b g'' happly => ?_⟩
  · cases happly
  · cases happly
    exact hq

theorem modify {f : Graph → Graph} {Q : Unit → Graph → Prop} (hf : ∀ g, P g → Q () (f g)) :
    Safe P (MonadStateOf.modifyGet fun g => ((), f g) : Pass Unit) Q := by
  refine fun g hg => ⟨fun failure g' happly => ?_, fun b g' happly => ?_⟩
  · cases happly
  · cases happly
    exact hf g hg

theorem get : Safe P (MonadState.get : Pass Graph) fun g' g => P g ∧ g' = g := by
  refine fun g hg => ⟨fun failure g' happly => ?_, fun b g' happly => ?_⟩
  · cases happly
  · cases happly
    exact ⟨hg, rfl⟩

theorem total {p : α → Pass Nat} {as : List α} (hp : ∀ a ∈ as, Safe P (p a) fun _ => P) :
    Safe P (Pass.total p as) fun _ => P := by
  induction as with
  | nil => exact pure fun _ hg => hg
  | cons a later ih =>
    rw [List.forall_mem_cons] at hp
    exact bind hp.1 fun n => bind (ih hp.2) fun m => pure fun _ hg => hg

end Safe

end Pass

/-! ## Loading -/

/-- The loading does not fail for a handle that numbers nothing. -/
def LoadsInRange {α : Type} (x : Loading α) : Prop :=
  ∀ c failure c', x.run.run c = (.error failure, c') → ¬ failure.OutOfRange

namespace LoadsInRange

variable {α β : Type}

theorem pure (a : α) : LoadsInRange (Pure.pure a) := by
  intro c failure c' hx
  cases hx

theorem throw {failure : Failure} (h : ¬ failure.OutOfRange) :
    LoadsInRange (MonadExcept.throw failure : Loading α) := by
  intro c failure' c' hx
  cases hx
  exact h

theorem bind {x : Loading α} {f : α → Loading β} (hx : LoadsInRange x)
    (hf : ∀ a, LoadsInRange (f a)) : LoadsInRange (x >>= f) := by
  intro c failure c' hrun
  rw [Loading.run_bind] at hrun
  rcases h : x.run.run c with ⟨failure' | a, c₁⟩
  · rw [h] at hrun
    cases hrun
    exact hx c failure _ h
  · rw [h] at hrun
    exact hf a c₁ failure c' hrun

theorem each {f : α → Loading β} (hf : ∀ a, LoadsInRange (f a)) (as : List α) :
    LoadsInRange (Loading.each f as) := by
  induction as with
  | nil => exact pure []
  | cons a later ih => exact bind (hf a) fun b => bind ih fun more => pure (b :: more)

end LoadsInRange

section

variable {disk : Disk} {entities : Xml.EntityMap}

theorem loadsInRange_loadDraft (p : Path) : LoadsInRange (loadDraft disk entities p) := by
  intro c failure c' hx
  cases hget : c.get? p with
  | some draft =>
    rw [run_loadDraft_of_hit hget] at hx
    cases hx
  | none =>
    cases hread : readDraft disk entities p with
    | ok draft =>
      rw [run_loadDraft_of_ok hget hread] at hx
      cases hx
    | error failure' =>
      rw [run_loadDraft_of_error hget hread] at hx
      cases hx
      unfold readDraft at hread
      split at hread
      · cases hread
        exact fun hout => hout
      · split at hread
        · cases hread
          exact fun hout => hout
        · cases hread

theorem loadsInRange_resolveFrom (base : Path) (steps : Nat) (way : List Path) (p : Path) :
    LoadsInRange (resolveFrom disk entities base steps way p) := by
  induction steps generalizing way p with
  | zero => exact .throw fun hout => hout
  | succ steps ih =>
    unfold resolveFrom
    dsimp only
    split
    · exact .throw fun hout => hout
    · refine .bind (loadsInRange_loadDraft _) fun draft => ?_
      exact .bind (.each (fun i => ih _ _) draft.imports) fun imports => .pure _

/-- A search for files looks up no handles. -/
theorem loadsInRange_resolve (p base : Path) : LoadsInRange (resolve disk entities p base) := by
  intro c failure c' hx
  rw [resolve, Loading.run_bind, Loading.run_get] at hx
  exact loadsInRange_resolveFrom base (steps disk c) [] p c failure c' hx

end

end SchemaFamily
