import SchemaFamily.Family.Compile
import SchemaFamily.Proofs.Family.Drafts
import SchemaFamily.Proofs.Family.Runs

/-
  How many steps a search may take. What is found within some steps is found within more, and the
  cache is the same afterwards (`refines_resolveFrom`). Two steps are always allowed, so what they
  find is what `resolve` and `compileIn` go on with (`run_resolve_of_two_steps`,
  `run_compileIn_of_two_steps`); in runs on given files nobody has to count their characters.
-/

namespace SchemaFamily

/-- Where `x` succeeds, `y` does so with the same result and the same cache. -/
def Loading.Refines {α : Type} (x y : Loading α) : Prop :=
  ∀ c a c', x.run.run c = (.ok a, c') → y.run.run c = (.ok a, c')

namespace Loading.Refines

variable {α β : Type}

theorem refl (x : Loading α) : Refines x x := fun _ _ _ h => h

theorem bind {x y : Loading α} {f f' : α → Loading β} (hx : Refines x y)
    (hf : ∀ a, Refines (f a) (f' a)) : Refines (x >>= f) (y >>= f') := by
  intro c b c' hr
  rw [Loading.run_bind] at hr ⊢
  rcases hrun : x.run.run c with ⟨_ | a, c₁⟩
  · rw [hrun] at hr
    cases hr
  · rw [hrun] at hr
    rw [hx c a c₁ hrun]
    exact hf a c₁ b c' hr

theorem each {f f' : α → Loading β} (hf : ∀ a, Refines (f a) (f' a)) (as : List α) :
    Refines (Loading.each f as) (Loading.each f' as) := by
  induction as with
  | nil => exact refl _
  | cons a later ih => exact bind (hf a) fun b => bind ih fun more => refl _

end Loading.Refines

section

variable {disk : Disk} {entities : Xml.EntityMap} {base p : Path} {c c' : Cache}
  {tree : ImportTree}

/-- With more steps a search finds what it found with fewer. -/
theorem refines_resolveFrom {n m : Nat} (h : n ≤ m) (way : List Path) (p : Path) :
    Loading.Refines (resolveFrom disk entities base n way p)
      (resolveFrom disk entities base m way p) := by
  induction n generalizing m way p with
  | zero =>
    intro c a c' hr
    cases hr
  | succ n ih =>
    obtain ⟨m, rfl⟩ := Nat.exists_eq_add_of_le' (Nat.lt_of_lt_of_le (Nat.succ_pos n) h)
    rw [resolveFrom, resolveFrom]
    split
    · exact .refl _
    · refine .bind (.refl _) fun draft => .bind (.each (fun i => ?_) _) fun imports => .refl _
      exact ih (Nat.le_of_succ_le_succ h) _ _

theorem run_resolve_of_two_steps
    (hr : (resolveFrom disk entities base 2 [] p).run.run c = (.ok tree, c')) :
    (resolve disk entities p base).run.run c = (.ok tree, c') := by
  rw [resolve, Loading.run_bind, Loading.run_get]
  exact refines_resolveFrom (Nat.le_add_left _ _) [] p c tree c' hr

theorem run_compileIn_of_two_steps {settings : Settings} {n : Nat} {g : Graph}
    (hr : (resolveFrom disk settings.entities base 2 [] p).run.run c = (.ok tree, c'))
    (hf : (finishFamily settings.multiplexerSuffix).apply (Graph.ofTree tree) = (.ok n, g)) :
    (compileIn disk settings p base).run.run c = (.ok g, c') := by
  rw [compileIn, Loading.run_bind, run_resolve_of_two_steps hr]
  dsimp only
  rw [hf]
  rfl

end

end SchemaFamily
