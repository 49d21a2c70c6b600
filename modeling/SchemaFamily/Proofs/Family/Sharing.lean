import Mathlib.Data.List.Nodup
import SchemaFamily.Family.Multiplexer

/-
  Sharing by name. Of several demands for a multiplexer the first of each name is met (`firstBy`),
  and those met are numbered in order (`arena`). Each demand is then represented by the multiplexer
  of its name (`sharedBy?`). A further demand leaves the multiplexers there are as they are and adds
  one when its name is new (`arena_append_of_mem`, `arena_append_of_not_mem`).
-/

namespace SchemaFamily

section

variable {α β : Type} [DecidableEq β]

/-- The first of each key, in order. -/
def firstBy (key : α → β) : List α → List α
  | [] => []
  | a :: later => a :: (firstBy key later).filter fun b => key b ≠ key a

variable {key : α → β}

theorem mem_of_mem_firstBy {a : α} {as : List α} (h : a ∈ firstBy key as) : a ∈ as := by
  induction as with
  | nil => cases h
  | cons x later ih =>
    rcases List.mem_cons.1 h with rfl | h
    · exact List.mem_cons_self
    · exact List.mem_cons_of_mem x (ih (List.mem_filter.1 h).1)

theorem key_mem_firstBy {k : β} {as : List α} :
    k ∈ (firstBy key as).map key ↔ k ∈ as.map key := by
  induction as with
  | nil => rfl
  | cons x later ih =>
    rw [firstBy, List.map_cons, List.map_cons, List.mem_cons, List.mem_cons, ← ih]
    by_cases hk : k = key x
    · rw [eq_true hk, true_or, true_or]
    · rw [eq_false hk, false_or, false_or]
      constructor
      · intro hm
        obtain ⟨a, ha, rfl⟩ := List.mem_map.1 hm
        exact List.mem_map.2 ⟨a, (List.mem_filter.1 ha).1, rfl⟩
      · intro hm
        obtain ⟨a, ha, rfl⟩ := List.mem_map.1 hm
        exact List.mem_map.2 ⟨a, List.mem_filter.2 ⟨ha, by simpa using hk⟩, rfl⟩

theorem pairwise_firstBy (as : List α) : (firstBy key as).Pairwise fun a b => key a ≠ key b := by
  induction as with
  | nil => exact .nil
  | cons x later ih =>
    rw [firstBy, List.pairwise_cons]
    refine ⟨fun b hb => ?_, ih.filter _⟩
    have := (List.mem_filter.1 hb).2
    exact fun e => of_decide_eq_true this e.symm

/-- What comes last is kept if its key is new. -/
theorem firstBy_append_singleton (as : List α) (a : α) :
    firstBy key (as ++ [a]) =
      if key a ∈ as.map key then firstBy key as else firstBy key as ++ [a] := by
  induction as with
  | nil => rfl
  | cons x later ih =>
    rw [List.cons_append, firstBy, ih, List.map_cons]
    by_cases hx : key a = key x
    · rw [if_pos (show key a ∈ key x :: later.map key by simp [hx])]
      split
      · rfl
      · rw [List.filter_append, firstBy]
        simp [hx]
    · by_cases hm : key a ∈ later.map key
      · rw [if_pos hm, if_pos (List.mem_cons_of_mem _ hm), firstBy]
      · rw [if_neg hm, if_neg (by simpa [hx] using hm), List.filter_append, firstBy,
          List.cons_append]
        simp [hx]

/-- The first of a key is the one found under it. -/
theorem find?_firstBy [BEq β] [LawfulBEq β] (k : β) (as : List α) :
    (firstBy key as).find? (key · == k) = as.find? (key · == k) := by
  induction as with
  | nil => rfl
  | cons x later ih =>
    rw [firstBy, List.find?_cons, List.find?_cons, List.find?_filter, ← ih]
    split
    · rfl
    · next hx =>
      refine congrArg (fun p => (firstBy key later).find? p) (funext fun b => ?_)
      by_cases hb : key b = k
      · have hne : key b ≠ key x := fun e => by simp [← e, hb] at hx
        simp [hb, hb ▸ hne]
      · simp [hb]

theorem firstBy_map {γ : Type} (f : γ → α) (cs : List γ) :
    firstBy key (cs.map f) = (firstBy (key ∘ f) cs).map f := by
  induction cs with
  | nil => rfl
  | cons c later ih =>
    rw [List.map_cons, firstBy, ih, firstBy, List.map_cons, List.filter_map]
    rfl

theorem firstBy_congr {key' : α → β} {as : List α} (h : ∀ a ∈ as, key a = key' a) :
    firstBy key as = firstBy key' as := by
  induction as with
  | nil => rfl
  | cons x later ih =>
    rw [firstBy, firstBy, ih fun a ha => h a (List.mem_cons_of_mem _ ha)]
    refine congrArg (x :: ·) (List.filter_congr fun b hb => ?_)
    rw [h x List.mem_cons_self, h b (List.mem_cons_of_mem _ (mem_of_mem_firstBy hb))]

/-- Keys that are told apart alike keep the same things. -/
theorem firstBy_comp {γ : Type} [DecidableEq γ] {f : β → γ} (hf : ∀ k k', f k = f k' → k = k')
    (as : List α) : firstBy (f ∘ key) as = firstBy key as := by
  induction as with
  | nil => rfl
  | cons x later ih =>
    rw [firstBy, firstBy, ih]
    refine congrArg (x :: ·) (List.filter_congr fun b _ => ?_)
    rw [decide_eq_decide]
    exact not_congr ⟨hf _ _, congrArg f⟩

end

/-! ## Multiplexers by name -/

/-- The multiplexers in order, each with the handle of its place. -/
def numbered (ms : List Multiplexer) : List Multiplexer :=
  ms.mapIdx fun i m => { m with id := .ofIndex i }

/-- The multiplexers that meet some demands. -/
def arena (demands : List Multiplexer) : List Multiplexer := numbered (firstBy (·.name) demands)

/-- The multiplexer of a name. -/
def sharedBy? (demands : List Multiplexer) (name : String) : Option Multiplexer :=
  (arena demands).find? (·.name == name)

variable {demands : List Multiplexer} {m s : Multiplexer} {name : String}

theorem getElem?_numbered (ms : List Multiplexer) (i : Nat) :
    (numbered ms)[i]? = ms[i]?.map fun m => { m with id := .ofIndex i } := List.getElem?_mapIdx

theorem length_arena (demands : List Multiplexer) :
    (arena demands).length = (firstBy (·.name) demands).length := List.length_mapIdx

theorem map_name_arena (demands : List Multiplexer) :
    (arena demands).map (·.name) = (firstBy (·.name) demands).map (·.name) := by
  refine List.ext_getElem? fun i => ?_
  rw [List.getElem?_map, List.getElem?_map, arena, getElem?_numbered, Option.map_map]
  rfl

theorem pairwise_arena (demands : List Multiplexer) :
    (arena demands).Pairwise fun a b => a.name ≠ b.name := by
  have hnames : ((arena demands).map (·.name)).Pairwise (· ≠ ·) := by
    rw [map_name_arena]
    exact List.pairwise_map.2 (pairwise_firstBy demands)
  exact List.pairwise_map.1 hnames

theorem arena_append_of_mem (h : m.name ∈ demands.map (·.name)) :
    arena (demands ++ [m]) = arena demands := by
  rw [arena, firstBy_append_singleton, if_pos h, arena]

theorem arena_append_of_not_mem (h : m.name ∉ demands.map (·.name)) :
    arena (demands ++ [m]) =
      arena demands ++ [{ m with id := .ofIndex (arena demands).length }] := by
  rw [length_arena, arena, firstBy_append_singleton, if_neg h, arena, numbered, numbered,
    List.mapIdx_concat]

theorem exists_sharedBy? (h : name ∈ demands.map (·.name)) :
    ∃ s, sharedBy? demands name = some s := by
  rw [← key_mem_firstBy, ← map_name_arena] at h
  obtain ⟨s, hs, rfl⟩ := List.mem_map.1 h
  exact Option.isSome_iff_exists.1 (List.find?_isSome.2 ⟨s, hs, by simp⟩)

theorem mem_of_sharedBy? (h : sharedBy? demands name = some s) :
    s ∈ arena demands ∧ s.name = name :=
  ⟨List.mem_of_find?_eq_some h, by simpa using List.find?_some h⟩

/-- A multiplexer is the one of its name. -/
theorem sharedBy?_of_mem (h : m ∈ arena demands) : sharedBy? demands m.name = some m := by
  have hname : m.name ∈ (arena demands).map (·.name) := List.mem_map.2 ⟨m, h, rfl⟩
  rw [map_name_arena, key_mem_firstBy] at hname
  obtain ⟨s, hs⟩ := exists_sharedBy? hname
  obtain ⟨hmem, hsame⟩ := mem_of_sharedBy? hs
  have hnodup : ((arena demands).map (·.name)).Nodup :=
    List.nodup_iff_pairwise_ne.2 (List.pairwise_map.2 (pairwise_arena demands))
  rw [hs, List.inj_on_of_nodup_map hnodup hmem h hsame]

theorem sharedBy?_eq_none (h : name ∉ demands.map (·.name)) : sharedBy? demands name = none := by
  cases hs : sharedBy? demands name with
  | none => rfl
  | some s =>
    obtain ⟨hm, rfl⟩ := mem_of_sharedBy? hs
    exact absurd (key_mem_firstBy.1 (map_name_arena demands ▸ List.mem_map.2 ⟨s, hm, rfl⟩)) h

/-- A name that stands for a multiplexer stands for it ever after. -/
theorem sharedBy?_append (h : name ∈ demands.map (·.name)) (m : Multiplexer) :
    sharedBy? (demands ++ [m]) name = sharedBy? demands name := by
  obtain ⟨s, hs⟩ := exists_sharedBy? h
  by_cases hm : m.name ∈ demands.map (·.name)
  · rw [sharedBy?, arena_append_of_mem hm, sharedBy?]
  · rw [hs, sharedBy?, arena_append_of_not_mem hm, List.find?_append]
    rw [show (arena demands).find? (·.name == name) = some s from hs, Option.some_or]

/-- A demand of a new name is met by the multiplexer made for it. -/
theorem sharedBy?_append_self (h : m.name ∉ demands.map (·.name)) :
    sharedBy? (demands ++ [m]) m.name =
      some { m with id := .ofIndex (arena demands).length } := by
  rw [sharedBy?, arena_append_of_not_mem h, List.find?_append]
  rw [show (arena demands).find? (·.name == m.name) = none from sharedBy?_eq_none h, Option.none_or,
    List.find?_cons_of_pos (by simp)]

end SchemaFamily
