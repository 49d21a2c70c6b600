import SchemaFamily.Definition.Slot

/-
  Usages by their slots. `mapSlots` changes every usage of a definition by what stands at its slot;
  changing one usage (`modifyUsage_eq_mapSlots`) and changing all alike (`mapUsages_eq_mapSlots`)
  are cases of it, so what several changes make of a definition is one `mapSlots`
  (`mapSlots_mapSlots`). The list of usages follows (`usages_mapSlots`), and it holds each slot
  once, with the usage that is found there (`mem_usages_iff`, `nodup_slots`).
-/

namespace SchemaFamily

/-! ## Changing usages at their slots -/

/-- The model's entry number `item` with each usage changed by `f` at its slot. -/
def ModelItem.mapSlots (f : Slot → Usage → Usage) (item : Nat) : ModelItem → ModelItem
  | .usage u => .usage (f (.model item) u)
  | .choice members => .choice (members.mapIdx fun member u => f (.choice item member) u)
  | .prose => .prose
  | .any => .any

/-- The definition with each usage changed by `f` at its slot. -/
def Definition.mapSlots (f : Slot → Usage → Usage) (d : Definition) : Definition :=
  { d with body :=
      (d.body.mapFlags fun us => us.mapIdx fun i u => f (.flag i) u).mapModel fun items =>
        items.mapIdx fun i item => item.mapSlots f i }

theorem mapIdx_ite_modify {α : Type} (f : α → α) (i : Nat) (xs : List α) :
    xs.modify i f = xs.mapIdx fun j x => if j = i then f x else x := by
  apply List.ext_getElem?
  intro j
  rw [List.getElem?_modify, List.getElem?_mapIdx]
  by_cases h : i = j
  · subst h
    simp
  · have h' : ¬ j = i := fun e => h e.symm
    simp [h, h']

theorem zipIdx_mapIdx {α β : Type} (f : Nat → α → β) (xs : List α) :
    (xs.mapIdx f).zipIdx = xs.zipIdx.map fun (x, i) => (f i x, i) := by
  apply List.ext_getElem?
  intro j
  simp only [List.getElem?_zipIdx, List.getElem?_mapIdx, List.getElem?_map, Option.map_map]
  cases xs[j]? <;> simp

theorem mapIdx_const {α β : Type} (f : α → β) (xs : List α) :
    (xs.mapIdx fun _ x => f x) = xs.map f := by
  rw [List.mapIdx_eq_iff]
  intro i
  rw [List.getElem?_map]

theorem mapIdx_self {α : Type} (xs : List α) : (xs.mapIdx fun _ x => x) = xs := by
  rw [mapIdx_const, List.map_id']

namespace Body

@[simp]
theorem mapFlags_self (b : Body) : (b.mapFlags fun us => us) = b := by
  cases b <;> rfl

@[simp]
theorem mapModel_self (b : Body) : (b.mapModel fun items => items) = b := by
  cases b <;> rfl

theorem mapFlags_mapFlags (f g : List Usage → List Usage) (b : Body) :
    (b.mapFlags f).mapFlags g = b.mapFlags fun us => g (f us) := by
  cases b <;> rfl

theorem mapModel_mapModel (f g : List ModelItem → List ModelItem) (b : Body) :
    (b.mapModel f).mapModel g = b.mapModel fun items => g (f items) := by
  cases b <;> rfl

theorem mapModel_mapFlags (f : List ModelItem → List ModelItem) (g : List Usage → List Usage)
    (b : Body) : (b.mapModel f).mapFlags g = (b.mapFlags g).mapModel f := by
  cases b <;> rfl

theorem mapFlags_congr {f g : List Usage → List Usage} {b : Body} (h : f b.flags = g b.flags) :
    b.mapFlags f = b.mapFlags g := by
  cases b with
  | assembly body => simp only [mapFlags]; rw [show f body.flags = g body.flags from h]
  | field body => simp only [mapFlags]; rw [show f body.flags = g body.flags from h]
  | flag body => rfl

theorem mapModel_congr {f g : List ModelItem → List ModelItem} {b : Body}
    (h : f b.model = g b.model) : b.mapModel f = b.mapModel g := by
  cases b with
  | assembly body => simp only [mapModel]; rw [show f body.model = g body.model from h]
  | field body => rfl
  | flag body => rfl

theorem flags_mapFlags_mapIdx (f : Nat → Usage → Usage) (b : Body) :
    (b.mapFlags (·.mapIdx f)).flags = b.flags.mapIdx f := by
  cases b <;> rfl

theorem model_mapModel_mapIdx (f : Nat → ModelItem → ModelItem) (b : Body) :
    (b.mapModel (·.mapIdx f)).model = b.model.mapIdx f := by
  cases b <;> rfl

end Body

/-! ## One definition under several changes -/

namespace ModelItem

theorem mapSlots_mapSlots (f g : Slot → Usage → Usage) (item : Nat) (entry : ModelItem) :
    (entry.mapSlots f item).mapSlots g item = entry.mapSlots (fun s u => g s (f s u)) item := by
  cases entry <;> simp [mapSlots, Function.comp_def]

theorem mapSlots_congr {f g : Slot → Usage → Usage} {item : Nat} {entry : ModelItem}
    (h : ∀ su ∈ entry.slotted item, f su.1 su.2 = g su.1 su.2) :
    entry.mapSlots f item = entry.mapSlots g item := by
  cases entry with
  | usage u => simp only [mapSlots]; rw [h (.model item, u) (by simp [slotted])]
  | choice members =>
    simp only [mapSlots]
    congr 1
    rw [List.mapIdx_eq_mapIdx_iff]
    intro member hm
    refine h (.choice item member, members[member]) ?_
    refine List.mem_map.2 ⟨(members[member], member), ?_, rfl⟩
    simp [List.mem_zipIdx_iff_getElem?, hm]
  | prose => rfl
  | any => rfl

theorem slotted_mapSlots (f : Slot → Usage → Usage) (item : Nat) (entry : ModelItem) :
    (entry.mapSlots f item).slotted item =
      (entry.slotted item).map fun (s, u) => (s, f s u) := by
  cases entry with
  | usage u => rfl
  | choice members => simp [mapSlots, slotted, zipIdx_mapIdx]
  | prose => rfl
  | any => rfl

end ModelItem

namespace Definition

theorem flags_mapSlots (f : Slot → Usage → Usage) (d : Definition) :
    (d.mapSlots f).flags = d.flags.mapIdx fun i u => f (.flag i) u := by
  simp only [flags, mapSlots, Body.flags_mapModel]
  exact Body.flags_mapFlags_mapIdx _ _

theorem model_mapSlots (f : Slot → Usage → Usage) (d : Definition) :
    (d.mapSlots f).model = d.model.mapIdx fun i item => item.mapSlots f i := by
  simp only [model, mapSlots]
  rw [Body.model_mapModel_mapIdx, Body.model_mapFlags]

@[simp]
theorem kind_mapSlots (f : Slot → Usage → Usage) (d : Definition) :
    (d.mapSlots f).kind = d.kind := by
  simp [kind, mapSlots]

/-- The usages of a changed definition stand at the slots they stood at. -/
theorem usages_mapSlots (f : Slot → Usage → Usage) (d : Definition) :
    (d.mapSlots f).usages = d.usages.map fun (s, u) => (s, f s u) := by
  simp only [usages, flags_mapSlots, model_mapSlots, zipIdx_mapIdx, List.map_append, List.map_map,
    List.flatMap_map, List.map_flatMap, ModelItem.slotted_mapSlots]
  rfl

theorem mapSlots_mapSlots (f g : Slot → Usage → Usage) (d : Definition) :
    (d.mapSlots f).mapSlots g = d.mapSlots fun s u => g s (f s u) := by
  simp only [mapSlots, Body.mapModel_mapFlags, Body.mapFlags_mapFlags, Body.mapModel_mapModel,
    List.mapIdx_mapIdx, Function.comp_def, ModelItem.mapSlots_mapSlots]

theorem mapSlots_congr {f g : Slot → Usage → Usage} {d : Definition}
    (h : ∀ su ∈ d.usages, f su.1 su.2 = g su.1 su.2) : d.mapSlots f = d.mapSlots g := by
  simp only [usages, List.mem_append] at h
  have hf : (d.flags.mapIdx fun i u => f (.flag i) u) =
      d.flags.mapIdx fun i u => g (.flag i) u := by
    rw [List.mapIdx_eq_mapIdx_iff]
    intro i hi
    refine h (.flag i, d.flags[i]) (.inl (List.mem_map.2 ⟨(d.flags[i], i), ?_, rfl⟩))
    simp [List.mem_zipIdx_iff_getElem?, hi]
  have hm : (d.model.mapIdx fun i item => item.mapSlots f i) =
      d.model.mapIdx fun i item => item.mapSlots g i := by
    rw [List.mapIdx_eq_mapIdx_iff]
    intro i hi
    refine ModelItem.mapSlots_congr fun su hsu => h su (.inr (List.mem_flatMap.2 ?_))
    exact ⟨(d.model[i], i), by simp [List.mem_zipIdx_iff_getElem?, hi], hsu⟩
  simp only [mapSlots]
  rw [Body.mapFlags_congr hf, Body.mapModel_congr (b := d.body.mapFlags _)]
  rw [Body.model_mapFlags]
  exact hm

theorem mapSlots_self (d : Definition) : (d.mapSlots fun _ u => u) = d := by
  have hitem : ∀ item (entry : ModelItem), (entry.mapSlots (fun _ u => u) item) = entry := by
    intro item entry
    cases entry <;> simp [ModelItem.mapSlots, mapIdx_self]
  simp [mapSlots, hitem, mapIdx_self]

theorem mapUsages_eq_mapSlots (f : Usage → Usage) (d : Definition) :
    d.mapUsages f = d.mapSlots fun _ u => f u := by
  have hitem : ∀ item (entry : ModelItem),
      entry.mapSlots (fun _ u => f u) item = entry.mapUsages f := by
    intro item entry
    cases entry <;> simp [ModelItem.mapSlots, ModelItem.mapUsages, mapIdx_const]
  simp only [mapUsages, mapSlots, hitem, mapIdx_const]

/-- Changing the usage at one slot changes every usage by a function that only acts there. -/
theorem modifyUsage_eq_mapSlots (d : Definition) (slot : Slot) (f : Usage → Usage) :
    d.modifyUsage slot f = d.mapSlots fun s u => if s = slot then f u else u := by
  cases slot with
  | flag i =>
    have hitem : ∀ item (entry : ModelItem),
        entry.mapSlots (fun s u => if s = .flag i then f u else u) item = entry := by
      intro item entry
      cases entry <;> simp [ModelItem.mapSlots, mapIdx_self]
    simp only [modifyUsage, mapSlots, hitem, mapIdx_self, Body.mapModel_self, mapIdx_ite_modify,
      Slot.flag.injEq]
  | model i =>
    have hitem : ∀ item (entry : ModelItem),
        entry.mapSlots (fun s u => if s = .model i then f u else u) item =
          if item = i then entry.modifyUsage f else entry := by
      intro item entry
      cases entry <;> by_cases h : item = i <;>
        simp [ModelItem.mapSlots, ModelItem.modifyUsage, mapIdx_self, h]
    simp only [modifyUsage, mapSlots, hitem, mapIdx_self, Body.mapFlags_self, mapIdx_ite_modify,
      reduceCtorEq, if_false]
  | choice i member =>
    have hitem : ∀ item (entry : ModelItem),
        entry.mapSlots (fun s u => if s = .choice i member then f u else u) item =
          if item = i then entry.modifyMember member f else entry := by
      intro item entry
      cases entry <;> by_cases h : item = i <;>
        simp [ModelItem.mapSlots, ModelItem.modifyMember, mapIdx_self, mapIdx_ite_modify, h]
    simp only [modifyUsage, mapSlots, hitem, mapIdx_self, Body.mapFlags_self, mapIdx_ite_modify,
      reduceCtorEq, if_false]

theorem jsonKey_modifyUsage (d : Definition) (slot : Slot) (f : Usage → Usage) :
    (d.modifyUsage slot f).jsonKey = d.jsonKey := by
  rcases d with ⟨name, metadata, body⟩
  cases slot <;> cases body <;> rfl

end Definition

/-! ## Each slot once -/

theorem ModelItem.mem_slotted {slot : Slot} {u : Usage} {item : Nat} {entry : ModelItem} :
    (slot, u) ∈ entry.slotted item ↔
      (slot = .model item ∧ entry.usage? = some u) ∨
        ∃ member, slot = .choice item member ∧ entry.member? member = some u := by
  cases entry with
  | usage v =>
    simp only [slotted, List.mem_singleton, Prod.mk.injEq, usage?, member?, Option.some.injEq,
      reduceCtorEq, and_false, exists_false, or_false]
    exact and_congr_right fun _ => eq_comm
  | choice members =>
    simp only [slotted, List.mem_map, Prod.mk.injEq, Prod.exists, List.mem_zipIdx_iff_getElem?,
      usage?, member?, reduceCtorEq, and_false, false_or]
    constructor
    · rintro ⟨v, member, hv, rfl, rfl⟩
      exact ⟨member, rfl, hv⟩
    · rintro ⟨member, rfl, hv⟩
      exact ⟨u, member, hv, rfl, rfl⟩
  | prose => simp [slotted, usage?, member?]
  | any => simp [slotted, usage?, member?]

theorem ModelItem.nodup_slotted (item : Nat) (entry : ModelItem) :
    ((entry.slotted item).map (·.1)).Nodup := by
  cases entry with
  | usage u => simp [slotted]
  | choice members =>
    have hm := congrArg (·.map (Slot.choice item)) (List.zipIdx_map_snd 0 members)
    simp only [List.map_map] at hm
    simp only [slotted, List.map_map]
    refine (congrArg List.Nodup (Eq.trans ?_ hm)).mpr ?_
    · rfl
    · exact List.Pairwise.map _ (fun a b h e => h (Slot.choice.inj e).2) List.nodup_range'
  | prose => simp [slotted]
  | any => simp [slotted]

namespace Definition

/-- The usages listed are those found at their slots. -/
theorem mem_usages_iff {d : Definition} {slot : Slot} {u : Usage} :
    (slot, u) ∈ d.usages ↔ d.usage? slot = some u := by
  cases slot with
  | flag i => exact mem_flag_usages
  | model i =>
    simp only [usages, List.mem_append, List.mem_map, List.mem_flatMap, ModelItem.mem_slotted,
      Prod.mk.injEq, reduceCtorEq, false_and, and_false, exists_false, false_or, or_false,
      Slot.model.injEq, Prod.exists, List.mem_zipIdx_iff_getElem?, usage?, Option.bind_eq_some_iff]
    constructor
    · rintro ⟨entry, j, hj, rfl, hu⟩
      exact ⟨entry, hj, hu⟩
    · rintro ⟨entry, hi, hu⟩
      exact ⟨entry, i, hi, rfl, hu⟩
  | choice i member =>
    simp only [usages, List.mem_append, List.mem_map, List.mem_flatMap, ModelItem.mem_slotted,
      Prod.mk.injEq, reduceCtorEq, false_and, and_false, exists_false, false_or,
      Slot.choice.injEq, Prod.exists, List.mem_zipIdx_iff_getElem?, usage?, Option.bind_eq_some_iff]
    constructor
    · rintro ⟨entry, j, hj, m, ⟨rfl, rfl⟩, hu⟩
      exact ⟨entry, hj, hu⟩
    · rintro ⟨entry, hi, hu⟩
      exact ⟨entry, i, hi, member, ⟨rfl, rfl⟩, hu⟩

theorem usage?_mapSlots (f : Slot → Usage → Usage) (d : Definition) (slot : Slot) :
    (d.mapSlots f).usage? slot = (d.usage? slot).map (f slot) := by
  refine Option.ext fun u => ?_
  rw [← mem_usages_iff, usages_mapSlots, List.mem_map, Option.map_eq_some_iff]
  constructor
  · rintro ⟨⟨s, v⟩, hv, he⟩
    cases he
    exact ⟨v, mem_usages_iff.1 hv, rfl⟩
  · rintro ⟨v, hv, rfl⟩
    exact ⟨(slot, v), mem_usages_iff.2 hv, rfl⟩

theorem usage?_mapUsages (f : Usage → Usage) (d : Definition) (slot : Slot) :
    (d.mapUsages f).usage? slot = (d.usage? slot).map f := by
  rw [mapUsages_eq_mapSlots, usage?_mapSlots]

/-- No slot is listed twice: flags, entries and members are each counted by their own kind of
    slot, and two entries of the model share none. -/
theorem nodup_slots (d : Definition) : (d.usages.map (·.1)).Nodup := by
  simp only [usages, List.map_append, List.map_map, List.map_flatMap]
  refine List.nodup_append.2 ⟨?_, ?_, ?_⟩
  · have hm := congrArg (·.map Slot.flag) (List.zipIdx_map_snd 0 d.flags)
    simp only [List.map_map] at hm
    refine (congrArg List.Nodup hm).mpr ?_
    exact List.Pairwise.map _ (fun a b h e => h (Slot.flag.inj e)) List.nodup_range'
  · rw [List.nodup_iff_pairwise_ne, List.pairwise_flatMap]
    refine ⟨fun x _ => ModelItem.nodup_slotted x.2 x.1, ?_⟩
    have hs : (d.model.zipIdx.map (·.2)).Nodup := by
      rw [List.zipIdx_map_snd]
      exact List.nodup_range'
    refine (List.pairwise_map.1 hs).imp ?_
    rintro ⟨entry, i⟩ ⟨entry', j⟩ hij s hs s' hs' rfl
    obtain ⟨⟨_, u⟩, hu, rfl⟩ := List.mem_map.1 hs
    obtain ⟨⟨s', v⟩, hv, he⟩ := List.mem_map.1 hs'
    simp only at he
    subst he
    rcases ModelItem.mem_slotted.1 hu with ⟨rfl, _⟩ | ⟨m, rfl, _⟩ <;>
      rcases ModelItem.mem_slotted.1 hv with ⟨h, _⟩ | ⟨m', h, _⟩ <;>
      simp_all
  · intro s hs s' hs' e
    obtain ⟨⟨_, i⟩, _, rfl⟩ := List.mem_map.1 hs
    subst e
    obtain ⟨⟨entry, j⟩, _, hs'⟩ := List.mem_flatMap.1 hs'
    obtain ⟨⟨s', u⟩, hu, he⟩ := List.mem_map.1 hs'
    simp only [Function.comp_apply] at he
    subst he
    rcases ModelItem.mem_slotted.1 hu with ⟨h, _⟩ | ⟨m, h, _⟩ <;> cases h

end Definition

end SchemaFamily
