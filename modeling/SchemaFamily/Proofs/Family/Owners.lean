import Mathlib.Data.List.Sort
import Mathlib.Data.Prod.Lex
import SchemaFamily.Proofs.Family.Subtree
import SchemaFamily.Proofs.Results
import SchemaFamily.Proofs.Text.Bytes

/-
  Owners of dependencies. The documents that own what a document depends on are sorted by names and
  then handles (`pairwise_sorted`), so that one that owns several things stands beside itself;
  without adjacent repeats the list is in strict order (`pairwise_eraseReps`). A list in that order
  has its members and nothing else to tell (`eq_of_pairwise_namedBefore`), so the list of owners
  tells which documents these are, and not from which dependencies they came
  (`exists_importedDependencies`).
-/

namespace SchemaFamily

/-! ## Adjacent repeats -/

section

variable {α : Type} [DecidableEq α]

theorem eraseReps_loop (a : α) (as acc : List α) :
    List.eraseRepsBy.loop (· == ·) a as acc = acc.reverse ++ (a :: as).eraseReps := by
  induction as generalizing a acc with
  | nil => simp [List.eraseReps, List.eraseRepsBy, List.eraseRepsBy.loop]
  | cons b later ih =>
    simp only [List.eraseReps, List.eraseRepsBy, List.eraseRepsBy.loop] at ih ⊢
    cases a == b with
    | true => exact ih a acc
    | false => simp only [ih b (a :: acc), ih b [a], List.reverse_cons, List.append_assoc]; rfl

theorem eraseReps_cons_cons (a b : α) (as : List α) : (a :: b :: as).eraseReps =
    if a = b then (a :: as).eraseReps else a :: (b :: as).eraseReps := by
  show List.eraseRepsBy.loop (· == ·) a (b :: as) [] = _
  rw [List.eraseRepsBy.loop]
  by_cases h : a = b
  · rw [if_pos h, beq_iff_eq.2 h]
    rfl
  · rw [if_neg h, beq_eq_false_iff_ne.2 h]
    exact eraseReps_loop b as [a]

theorem mem_eraseReps {a : α} {as : List α} : a ∈ as.eraseReps ↔ a ∈ as := by
  match as with
  | [] => exact Iff.rfl
  | [b] => exact Iff.rfl
  | b :: c :: later =>
    rw [eraseReps_cons_cons]
    split
    · next he =>
      subst he
      rw [mem_eraseReps]
      simp
    · rw [List.mem_cons, mem_eraseReps, List.mem_cons (a := a) (b := b)]

/-- What is in order, but for repeats, is in strict order without the adjacent ones. -/
theorem pairwise_eraseReps {r : α → α → Prop} (hasymm : ∀ a b, r a b → ¬ r b a) {as : List α}
    (h : as.Pairwise fun a b => r a b ∨ a = b) : as.eraseReps.Pairwise r := by
  match as with
  | [] => exact List.Pairwise.nil
  | [a] => exact List.pairwise_singleton r a
  | a :: b :: later =>
    obtain ⟨ha, hlater⟩ := List.pairwise_cons.1 h
    rw [eraseReps_cons_cons]
    split
    · next he =>
      subst he
      exact pairwise_eraseReps hasymm hlater
    · next hne =>
      refine List.pairwise_cons.2 ⟨fun c hc => ?_, pairwise_eraseReps hasymm hlater⟩
      have hc := mem_eraseReps.1 hc
      refine (ha c hc).resolve_right fun he => ?_
      -- a repeat of `a` behind `b` would be both before and behind it
      subst he
      have hab := (ha b List.mem_cons_self).resolve_right hne
      have hba := ((List.pairwise_cons.1 hlater).1 a ((List.mem_cons.1 hc).resolve_left hne))
      exact hasymm a b hab (hba.resolve_right (Ne.symm hne))

end

namespace Graph

variable {g : Graph}

/-! ## Lists of owners -/

/-- The document owns something that another one depends on. -/
def OwnsFor (g : Graph) (d : Document) (owner : DocumentId) : Prop :=
  ∃ e ∈ d.dependencies.entries, g.dependencyOwner e.dependency = .ok owner

/-- The name with the smaller bytes, or the same name and the smaller handle. -/
def NamedBefore (g : Graph) (a b : DocumentId) : Prop :=
  ∃ d e, g.document a = .ok d ∧ g.document b = .ok e ∧
    (bytes d.name < bytes e.name ∨ d.name = e.name ∧ a.raw < b.raw)

theorem NamedBefore.asymm {a b : DocumentId} (h : g.NamedBefore a b) : ¬ g.NamedBefore b a := by
  rintro ⟨e', d', he', hd', h'⟩
  obtain ⟨d, e, hd, he, h⟩ := h
  rw [hd] at hd'
  rw [he] at he'
  cases hd'
  cases he'
  rcases h with h | ⟨hn, h⟩ <;> rcases h' with h' | ⟨hn', h'⟩
  · exact List.lt_asymm h h'
  · exact List.lt_irrefl _ (hn' ▸ h)
  · exact List.lt_irrefl _ (hn ▸ h')
  · exact Nat.lt_asymm h h'

/-- Lists in the order of names and handles that have the same members are the same. -/
theorem eq_of_pairwise_namedBefore {as bs : List DocumentId} (ha : as.Pairwise g.NamedBefore)
    (hb : bs.Pairwise g.NamedBefore) (h : ∀ o, o ∈ as ↔ o ∈ bs) : as = bs := by
  have : Std.Irrefl g.NamedBefore := ⟨fun _ h => h.asymm h⟩
  have : Std.Antisymm g.NamedBefore := ⟨fun _ _ h h' => absurd h' h.asymm⟩
  exact ha.eq_of_mem_iff hb h

/-! ## Owners put in order -/

theorem notBehind_iff {a b : DocumentId × String} :
    notBehind a b = true ↔ toLex (a.2, a.1.index) ≤ toLex (b.2, b.1.index) := by
  rw [notBehind, decide_eq_true_eq, Prod.Lex.toLex_le_toLex]

theorem pairwise_sorted (named : List (DocumentId × String)) :
    (named.mergeSort notBehind).Pairwise fun a b => notBehind a b = true := by
  refine List.pairwise_mergeSort (fun a b c hab hbc => ?_) (fun a b => ?_) named
  · exact notBehind_iff.2 (le_trans (notBehind_iff.1 hab) (notBehind_iff.1 hbc))
  · rw [Bool.or_eq_true, notBehind_iff, notBehind_iff]
    exact le_total _ _

/-- Of two documents with their names, the one that is not behind is before or is the same. -/
theorem namedBefore_of_notBehind {a b : DocumentId} {d e : Document} (ha : g.document a = .ok d)
    (hb : g.document b = .ok e) (h : notBehind (a, d.name) (b, e.name) = true) :
    g.NamedBefore a b ∨ a = b := by
  rw [notBehind, decide_eq_true_eq] at h
  rcases h with hlt | ⟨hname, hle⟩
  · exact .inl ⟨d, e, ha, hb, .inl (lt_iff_bytes_lt.1 hlt)⟩
  · rcases Nat.lt_or_eq_of_le hle with hlt | he
    · exact .inl ⟨d, e, ha, hb, .inr ⟨hname, Nat.succ_lt_succ hlt⟩⟩
    · exact .inr (Handle.ext he)

theorem map_fst_of_mapM_name {ids : List DocumentId} {named : List (DocumentId × String)}
    (h : ids.mapM (fun id => (g.document id).map fun d => (id, d.name)) = .ok named) :
    named.map (·.1) = ids := by
  induction ids generalizing named with
  | nil =>
    cases h
    rfl
  | cons id later ih =>
    obtain ⟨x, more, hx, hmore, rfl⟩ := mapM_cons_eq_ok h
    obtain ⟨d, _, rfl⟩ := exists_of_map_ok hx
    rw [List.map_cons, ih hmore]

/-- Documents that exist have names, and those that are not behind by name are before. -/
theorem exists_named {ids : List DocumentId} (h : ∀ id ∈ ids, ∃ d, g.document id = .ok d) :
    ∃ named, g.named ids = .ok named ∧ named.map (·.1) = ids ∧
      ∀ a ∈ named, ∀ b ∈ named, notBehind a b = true → g.NamedBefore a.1 b.1 ∨ a.1 = b.1 := by
  match ids with
  | [] => exact ⟨[], rfl, rfl, fun a ha => absurd ha List.not_mem_nil⟩
  | [single] =>
    refine ⟨[(single, "")], rfl, rfl, fun a ha b hb _ => .inr ?_⟩
    rw [List.mem_singleton.1 ha, List.mem_singleton.1 hb]
  | first :: second :: later =>
    obtain ⟨named, hnamed, hmem⟩ := exists_mapM_ok
      (f := fun id => (g.document id).map fun d => (id, d.name)) fun id hid => by
        obtain ⟨d, hd⟩ := h id hid
        exact ⟨(id, d.name), by rw [hd]; rfl⟩
    refine ⟨named, hnamed, map_fst_of_mapM_name hnamed, fun a ha b hb hab => ?_⟩
    obtain ⟨_, _, hida⟩ := (hmem a).1 ha
    obtain ⟨_, _, hidb⟩ := (hmem b).1 hb
    obtain ⟨d, hd, rfl⟩ := exists_of_map_ok hida
    obtain ⟨e, he, rfl⟩ := exists_of_map_ok hidb
    exact namedBefore_of_notBehind hd he hab

theorem importedDependencies_eq {id : DocumentId} {d : Document} (hd : g.document id = .ok d) :
    g.importedDependencies id =
      (d.dependencies.entries.mapM (fun e => g.dependencyOwner e.dependency) >>= fun owners =>
        (g.named owners).map fun named => ((named.mergeSort notBehind).map (·.1)).eraseReps) := by
  rw [importedDependencies, hd]
  rfl

/-- Where what a document depends on is owned by documents, the list of these documents has each of
    them once, in order of names and handles. -/
theorem exists_importedDependencies {id : DocumentId} {d : Document} (hd : g.document id = .ok d)
    (howned : ∀ e ∈ d.dependencies.entries, ∃ owner o,
      g.dependencyOwner e.dependency = .ok owner ∧ g.document owner = .ok o) :
    ∃ owners, g.importedDependencies id = .ok owners ∧
      (∀ owner, owner ∈ owners ↔ g.OwnsFor d owner) ∧ owners.Pairwise g.NamedBefore := by
  obtain ⟨owners, howners, hmem⟩ := exists_mapM_ok
    (f := fun e : DependencyEntry => g.dependencyOwner e.dependency) fun e he =>
      (howned e he).imp fun _ ⟨_, howner, _⟩ => howner
  obtain ⟨named, hnamed, hfst, hbefore⟩ := g.exists_named fun owner (howner : owner ∈ owners) => by
    obtain ⟨e, he, hok⟩ := (hmem owner).1 howner
    obtain ⟨owner', o, hok', ho⟩ := howned e he
    rw [hok] at hok'
    cases hok'
    exact ⟨o, ho⟩
  refine ⟨_, by rw [importedDependencies_eq hd, howners]; exact congrArg (Except.map _) hnamed,
    fun owner => ?_, pairwise_eraseReps (fun _ _ h => h.asymm) ?_⟩
  · rw [mem_eraseReps, ((List.mergeSort_perm named _).map _).mem_iff, hfst]
    exact hmem owner
  · refine List.pairwise_map.2 ((pairwise_sorted named).imp_of_mem fun ha hb hab => ?_)
    exact hbefore _ (List.mem_mergeSort.1 ha) _ (List.mem_mergeSort.1 hb) hab

end Graph

end SchemaFamily
