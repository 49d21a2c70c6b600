import Mathlib.Algebra.GroupWithZero.Nat
import SchemaFamily.Family.Pass

/-
  Passes step by step. `Keeps` says how the graph after a pass is related to the one before it,
  whatever becomes of the pass, and `Brings` what a pass that ends with a result makes of a graph
  that is as it should be. An `Idle` pass does nothing to a graph, and `Calls` are passes run one
  after the other. `Runs` says exactly what a pass makes of its items: the graph goes from one known
  state to the next as long as no item has a fault, and the first item that has one decides the
  failure. All go from the steps to a whole `total` (`Keeps.total`, `Brings.total`, `Idle.total`,
  `Runs.total`).
-/

namespace SchemaFamily

namespace Pass

variable {α β : Type}

@[simp]
theorem apply_get (g : Graph) : (get : Pass Graph).apply g = (.ok g, g) := rfl

@[simp]
theorem apply_set (g g' : Graph) : (set g' : Pass Unit).apply g = (.ok (), g') := rfl

@[simp]
theorem apply_modify (f : Graph → Graph) (g : Graph) :
    (modify f : Pass Unit).apply g = (.ok (), f g) := rfl

theorem apply_bind_of_ok {p : Pass α} {q : α → Pass β} {g g' : Graph} {a : α}
    (h : p.apply g = (.ok a, g')) : (p >>= q).apply g = (q a).apply g' := by
  rw [apply_bind, h]

theorem apply_bind_ask {f : Graph → Except Dangling α} {q : α → Pass β} {g : Graph} {a : α}
    (h : f g = .ok a) : (ask f >>= q).apply g = (q a).apply g := by
  refine apply_bind_of_ok ?_
  rw [apply_ask, h]

theorem apply_bind_change {f : Graph → Except Dangling Graph} {q : Unit → Pass β} {g g' : Graph}
    (h : f g = .ok g') : (change f >>= q).apply g = (q ()).apply g' := by
  refine apply_bind_of_ok ?_
  rw [apply_change, h]

theorem total_map (p : β → Pass Nat) (f : α → β) (as : List α) :
    total p (as.map f) = total (p ∘ f) as := by
  induction as with
  | nil => rfl
  | cons a later ih =>
    rw [List.map_cons, total, total, ih]
    rfl

/-! ## What a pass keeps -/

/-- Whatever becomes of the pass, the graph before and the graph after it are as `R` says. -/
def Keeps (R : Graph → Graph → Prop) (p : Pass α) : Prop := ∀ g, R g (p.apply g).2

namespace Keeps

theorem mono {R S : Graph → Graph → Prop} {p : Pass α} (hp : Keeps R p)
    (h : ∀ g g', R g g' → S g g') : Keeps S p := fun g => h _ _ (hp g)

variable {R : Graph → Graph → Prop} (refl : ∀ g, R g g)
  (trans : ∀ g g' g'', R g g' → R g' g'' → R g g'')

include refl

theorem pure (a : α) : Keeps R (Pure.pure a : Pass α) := refl

theorem throw (failure : Failure) : Keeps R (MonadExcept.throw failure : Pass α) := refl

theorem get : Keeps R (MonadState.get : Pass Graph) := refl

theorem ask (f : Graph → Except Dangling α) : Keeps R (Pass.ask f) := by
  intro g
  rw [apply_ask]
  exact refl g

theorem change {f : Graph → Except Dangling Graph} (hf : ∀ g g', f g = .ok g' → R g g') :
    Keeps R (Pass.change f) := by
  intro g
  rw [apply_change]
  cases h : f g with
  | error handle => exact refl g
  | ok g' => exact hf g g' h

include trans

omit refl in
theorem bind {p : Pass α} {q : α → Pass β} (hp : Keeps R p) (hq : ∀ a, Keeps R (q a)) :
    Keeps R (p >>= q) := by
  intro g
  rw [apply_bind]
  have hg := hp g
  rcases h : p.apply g with ⟨failure | a, g'⟩
  · rw [h] at hg
    exact hg
  · rw [h] at hg
    exact trans _ _ _ hg (hq a g')

theorem total {p : α → Pass Nat} (hp : ∀ a, Keeps R (p a)) (as : List α) :
    Keeps R (Pass.total p as) := by
  induction as with
  | nil => exact pure refl 0
  | cons a later ih =>
    exact bind trans (hp a) fun n => bind trans ih fun m => pure refl (n + m)

end Keeps

/-! ## What a pass brings -/

/-- When the pass is run on a graph as `P` says and ends with a result, the result and the graph
    are as `Q` says. -/
def Brings (P : Graph → Prop) (p : Pass α) (Q : α → Graph → Prop) : Prop :=
  ∀ g, P g → ∀ a g', p.apply g = (.ok a, g') → Q a g'

namespace Brings

variable {P : Graph → Prop} {Q : α → Graph → Prop} {R : β → Graph → Prop}

theorem pure {a : α} (h : ∀ g, P g → Q a g) : Brings P (Pure.pure a) Q := by
  intro g hg b g' happly
  cases happly
  exact h g hg

theorem throw (failure : Failure) : Brings P (MonadExcept.throw failure) Q := by
  intro g _ a g' happly
  cases happly

theorem bind {p : Pass α} {q : α → Pass β} (hp : Brings P p Q) (hq : ∀ a, Brings (Q a) (q a) R) :
    Brings P (p >>= q) R := by
  intro g hg b g' happly
  rw [apply_bind] at happly
  rcases h : p.apply g with ⟨failure | a, g₁⟩
  · rw [h] at happly
    cases happly
  · rw [h] at happly
    exact hq a g₁ (hp g hg a g₁ h) b g' happly

theorem weaken {P' : Graph → Prop} {p : Pass α} (hp : Brings P p Q) (h : ∀ g, P' g → P g) :
    Brings P' p Q := fun g hg => hp g (h g hg)

/-- What is asked is true of the graph as it is. -/
theorem ask (f : Graph → Except Dangling α) :
    Brings P (Pass.ask f) fun a g => P g ∧ f g = .ok a := by
  intro g hg a g' happly
  rw [apply_ask] at happly
  cases h : f g with
  | error handle =>
    rw [h] at happly
    cases happly
  | ok b =>
    rw [h] at happly
    cases happly
    exact ⟨hg, h⟩

theorem change {f : Graph → Except Dangling Graph} {Q : Unit → Graph → Prop}
    (hf : ∀ g g', P g → f g = .ok g' → Q () g') : Brings P (Pass.change f) Q := by
  intro g hg a g' happly
  rw [apply_change] at happly
  cases h : f g with
  | error handle =>
    rw [h] at happly
    cases happly
  | ok g₁ =>
    rw [h] at happly
    cases happly
    exact hf g _ hg h

theorem modify {f : Graph → Graph} {Q : Unit → Graph → Prop} (hf : ∀ g, P g → Q () (f g)) :
    Brings P (MonadStateOf.modifyGet fun g => ((), f g) : Pass Unit) Q := by
  intro g hg a g' happly
  cases happly
  exact hf g hg

theorem get : Brings P (MonadState.get : Pass Graph) fun g' g => P g ∧ g' = g := by
  intro g hg a g' happly
  cases happly
  exact ⟨hg, rfl⟩

theorem total {p : α → Pass Nat} (hp : ∀ a, Brings P (p a) fun _ => P) (as : List α) :
    Brings P (Pass.total p as) fun _ => P := by
  induction as with
  | nil => exact pure fun _ hg => hg
  | cons a later ih => exact bind (hp a) fun n => bind ih fun m => pure fun _ hg => hg

/-- A pass on each of several things brings what each of them adds, one after the other. -/
theorem total_append {γ : Type} {S : List γ → Graph → Prop} {p : α → Pass Nat}
    {itemsOf : α → List γ} {as : List α}
    (hp : ∀ a ∈ as, ∀ done, Brings (S done) (p a) fun _ => S (done ++ itemsOf a))
    (done : List γ) :
    Brings (S done) (Pass.total p as) fun _ => S (done ++ as.flatMap itemsOf) := by
  induction as generalizing done with
  | nil =>
    rw [List.flatMap_nil, List.append_nil]
    exact pure fun _ hg => hg
  | cons a later ih =>
    rw [List.forall_mem_cons] at hp
    rw [List.flatMap_cons, ← List.append_assoc]
    exact bind (hp.1 done) fun n => bind (ih hp.2 _) fun m => pure fun _ hg => hg

end Brings

/-! ## Passes with nothing to do -/

/-- The pass changes nothing of the graph and counts nothing. -/
def Idle (g : Graph) (p : Pass Nat) : Prop := p.apply g = (.ok 0, g)

theorem Idle.total {g : Graph} {p : α → Pass Nat} {as : List α} (h : ∀ a ∈ as, Idle g (p a)) :
    Idle g (Pass.total p as) := by
  induction as with
  | nil => rfl
  | cons a later ih =>
    rw [List.forall_mem_cons] at h
    rw [Idle, Pass.total, apply_bind_of_ok h.1, apply_bind_of_ok (ih h.2), apply_pure]

/-! ## Calls one after the other -/

/-- The pass is run on one thing after the other, each time on what the time before made of the
    graph, and ends with a result every time. -/
inductive Calls (p : α → Pass β) : Graph → List α → List β → Graph → Prop where
  | nil (g : Graph) : Calls p g [] [] g
  | cons {g g' g'' : Graph} {a : α} {b : β} {as : List α} {bs : List β}
      (first : (p a).apply g = (.ok b, g')) (later : Calls p g' as bs g'') :
      Calls p g (a :: as) (b :: bs) g''

/-- Calls one after the other bring what each of them adds. -/
theorem Calls.brings {γ : Type} {S : List γ → Graph → Prop} {p : α → Pass β}
    {itemsOf : α → List γ} (hp : ∀ a done, Brings (S done) (p a) fun _ => S (done ++ itemsOf a))
    {g g' : Graph} {as : List α} {bs : List β} (h : Calls p g as bs g') {done : List γ}
    (hg : S done g) : S (done ++ as.flatMap itemsOf) g' := by
  induction h generalizing done with
  | nil g => rwa [List.flatMap_nil, List.append_nil]
  | cons first later ih =>
    rw [List.flatMap_cons, ← List.append_assoc]
    exact ih (hp _ _ _ hg _ _ first)

/-- When a pass on a list ends with a result, every call does, and the results add up to it. -/
theorem calls_of_total {p : α → Pass Nat} {as : List α} {g g' : Graph} {n : Nat}
    (h : (total p as).apply g = (.ok n, g')) : ∃ ns, Calls p g as ns g' ∧ ns.sum = n := by
  induction as generalizing g n with
  | nil =>
    cases h
    exact ⟨[], .nil _, rfl⟩
  | cons a later ih =>
    rw [total, apply_bind] at h
    rcases hfirst : (p a).apply g with ⟨failure | m, g₁⟩
    · rw [hfirst] at h
      cases h
    rw [hfirst] at h
    dsimp only at h
    rw [apply_bind] at h
    rcases hlater : (total p later).apply g₁ with ⟨failure | k, g₂⟩
    · rw [hlater] at h
      cases h
    rw [hlater] at h
    cases h
    obtain ⟨ns, hcalls, hsum⟩ := ih hlater
    exact ⟨m :: ns, .cons hfirst hcalls, by rw [List.sum_cons, hsum]⟩

/-! ## What a pass does -/

/-- Where the items `done` are done, the pass does `items`: the graph goes from one state to the
    next and the count grows by the result, unless an item has a fault; the first fault is the
    failure then. -/
def Runs (state : List α → Graph) (count : List α → Nat) (fault? : α → Option Failure)
    (p : Pass Nat) (done items : List α) : Prop :=
  match items.findSome? fault? with
  | none => ∃ n, p.apply (state done) = (.ok n, state (done ++ items)) ∧
      count (done ++ items) = count done + n
  | some failure => ∃ g, p.apply (state done) = (.error failure, g)

namespace Runs

variable {state : List α → Graph} {count : List α → Nat} {fault? : α → Option Failure}
  {p q : Pass Nat} {done items later : List α}

theorem nil (done : List α) : Runs state count fault? (Pure.pure 0) done [] :=
  ⟨0, by simp, by simp⟩

theorem of_apply_eq (h : Runs state count fault? q done items)
    (hp : p.apply (state done) = q.apply (state done)) : Runs state count fault? p done items := by
  unfold Runs at h ⊢
  rw [hp]
  exact h

theorem add (hp : Runs state count fault? p done items)
    (hq : Runs state count fault? q (done ++ items) later) :
    Runs state count fault? (p >>= fun n => q >>= fun m => Pure.pure (n + m)) done
      (items ++ later) := by
  unfold Runs at hp hq ⊢
  rw [List.findSome?_append]
  cases hi : items.findSome? fault? with
  | some failure =>
    rw [hi] at hp
    obtain ⟨g, hg⟩ := hp
    exact ⟨g, by rw [apply_bind, hg]⟩
  | none =>
    rw [hi] at hp
    obtain ⟨n, hn, hcount⟩ := hp
    rw [Option.none_or, apply_bind_of_ok hn]
    cases hl : later.findSome? fault? with
    | some failure =>
      rw [hl] at hq
      obtain ⟨g, hg⟩ := hq
      exact ⟨g, by rw [apply_bind, hg]⟩
    | none =>
      rw [hl] at hq
      obtain ⟨m, hm, hcount'⟩ := hq
      refine ⟨n + m, ?_, ?_⟩
      · rw [apply_bind_of_ok hm, apply_pure, List.append_assoc]
      · rw [← List.append_assoc, hcount', hcount, Nat.add_assoc]

/-- A pass on each of several things does the items of the first, then those of the second, and so
    on; what was done before one of them is known when it comes to it. -/
theorem total {p : β → Pass Nat} {itemsOf : β → List α} (bs : List β)
    (h : ∀ before b after, bs = before ++ b :: after →
      Runs state count fault? (p b) (done ++ before.flatMap itemsOf) (itemsOf b)) :
    Runs state count fault? (Pass.total p bs) done (bs.flatMap itemsOf) := by
  induction bs generalizing done with
  | nil => exact nil done
  | cons b later ih =>
    have hb := h [] b later rfl
    rw [List.flatMap_nil, List.append_nil] at hb
    rw [List.flatMap_cons]
    refine add hb (ih fun before b' after hbs => ?_)
    have := h (b :: before) b' after (by rw [hbs, List.cons_append])
    rwa [List.flatMap_cons, ← List.append_assoc] at this

/-- A pass on each item does the items in order. -/
theorem total_items {p : α → Pass Nat} (as : List α)
    (h : ∀ before a after, as = before ++ a :: after →
      Runs state count fault? (p a) (done ++ before) [a]) :
    Runs state count fault? (Pass.total p as) done as := by
  have htotal : Runs state count fault? (Pass.total p as) done (as.flatMap fun a => [a]) := by
    refine total as fun before a after has => ?_
    rw [List.flatMap_singleton']
    exact h before a after has
  rwa [List.flatMap_singleton'] at htotal

theorem exists_ok (h : Runs state count fault? p done items)
    (hnone : ∀ a ∈ items, fault? a = none) :
    ∃ n, p.apply (state done) = (.ok n, state (done ++ items)) ∧
      count (done ++ items) = count done + n := by
  unfold Runs at h
  rwa [List.findSome?_eq_none_iff.2 hnone] at h

theorem of_ok (h : Runs state count fault? p done items) {n : Nat} {g : Graph}
    (hp : p.apply (state done) = (.ok n, g)) :
    (∀ a ∈ items, fault? a = none) ∧ g = state (done ++ items) ∧
      count (done ++ items) = count done + n := by
  unfold Runs at h
  cases hi : items.findSome? fault? with
  | some failure =>
    rw [hi] at h
    obtain ⟨g', hg'⟩ := h
    rw [hp] at hg'
    cases hg'
  | none =>
    rw [hi] at h
    obtain ⟨m, hm, hcount⟩ := h
    rw [hp] at hm
    cases hm
    exact ⟨List.findSome?_eq_none_iff.1 hi, rfl, hcount⟩

theorem of_error (h : Runs state count fault? p done items) {failure : Failure} {g : Graph}
    (hp : p.apply (state done) = (.error failure, g)) :
    ∃ a ∈ items, fault? a = some failure := by
  unfold Runs at h
  cases hi : items.findSome? fault? with
  | some failure' =>
    rw [hi] at h
    obtain ⟨g', hg'⟩ := h
    rw [hp] at hg'
    cases hg'
    exact List.exists_of_findSome?_eq_some hi
  | none =>
    rw [hi] at h
    obtain ⟨n, hn, _⟩ := h
    rw [hp] at hn
    cases hn

end Runs

end Pass

/-! ## Runs on given inputs -/

/-- The run ends with a result, and the result and the state are as `check` says. -/
def succeeds {ε α σ : Type} (check : α → σ → Bool) : Except ε α × σ → Bool
  | (.ok a, s) => check a s
  | (.error _, _) => false

theorem exists_of_succeeds {ε α σ : Type} {check : α → σ → Bool} {x : Except ε α × σ}
    (h : succeeds check x = true) : ∃ a s, x = (.ok a, s) ∧ check a s = true := by
  rcases x with ⟨_ | a, s⟩
  · cases h
  · exact ⟨a, s, rfl, h⟩

end SchemaFamily
