import SchemaFamily.Proofs.Definition.Slots

/-
  Cells. The usage at a slot can be taken hold of, to read it and to put another one in its place.
  `cell?` looks for it in the body of the definition, kind by kind, and `cell?_eq` says that it is
  the one that `usage?` reads and `modifyUsage` changes. What is put is read back there, every other
  slot keeps its usage, and but for its usages the definition stays what it is (`usages_by_slot`).
-/

namespace SchemaFamily

/-- A usage in something, and what that becomes when another usage is put in its place. -/
structure Cell (α : Type) where
  usage : Usage
  put : Usage → α

/-- The cell in something that is made of what the usage stands in. -/
def Cell.map {α β : Type} (f : α → β) (c : Cell α) : Cell β := ⟨c.usage, fun v => f (c.put v)⟩

/-- The cell number `i` of a list. -/
def cellAt? (us : List Usage) (i : Nat) : Option (Cell (List Usage)) :=
  us[i]?.map fun u => ⟨u, us.set i⟩

theorem modify_of_getElem? {α : Type} {xs : List α} {i : Nat} {x : α} (h : xs[i]? = some x)
    (f : α → α) : xs.modify i f = xs.set i (f x) := by
  have : Inhabited α := ⟨x⟩
  rw [List.modify_eq_set, h]
  rfl

theorem cellAt?_eq (us : List Usage) (i : Nat) :
    cellAt? us i = us[i]?.map fun u => ⟨u, fun v => us.modify i fun _ => v⟩ := by
  rw [cellAt?]
  cases h : us[i]? with
  | none => rfl
  | some u => simp only [Option.map_some, modify_of_getElem? h]

namespace Definition

/-- The cell at a slot. Assemblies and fields have flags, and only assemblies have a model, where
    single usages and members of choices have cells. -/
def cell? (d : Definition) (slot : Slot) : Option (Cell Definition) :=
  match d.body, slot with
  | .assembly body, .flag i =>
    (cellAt? body.flags i).map (·.map fun flags => { d with body := .assembly { body with flags } })
  | .field body, .flag i =>
    (cellAt? body.flags i).map (·.map fun flags => { d with body := .field { body with flags } })
  | .assembly body, .model i =>
    let put item := { d with body := .assembly { body with model := body.model.set i item } }
    match body.model[i]? with
    | some (.usage u) => some ⟨u, fun v => put (.usage v)⟩
    | _ => none
  | .assembly body, .choice i member =>
    let put item := { d with body := .assembly { body with model := body.model.set i item } }
    match body.model[i]? with
    | some (.choice members) => (cellAt? members member).map (·.map fun us => put (.choice us))
    | _ => none
  | _, _ => none

/-- The cell at a slot is the one that is read and changed there. -/
theorem cell?_eq (d : Definition) (slot : Slot) :
    d.cell? slot = (d.usage? slot).map fun u => ⟨u, fun v => d.modifyUsage slot fun _ => v⟩ := by
  rcases d with ⟨name, metadata, body⟩
  rcases body with body | body | body
  · cases slot with
    | flag i =>
      simp only [cell?, cellAt?_eq, Option.map_map]
      rfl
    | model i =>
      cases h : body.model[i]? with
      | none => simp [cell?, usage?, model, Body.model, h]
      | some item =>
        cases item <;> simp [cell?, usage?, modifyUsage, model, Body.model, Body.mapModel, h,
          ModelItem.usage?, ModelItem.modifyUsage, modify_of_getElem? h]
    | choice i member =>
      cases h : body.model[i]? with
      | none => simp [cell?, usage?, model, Body.model, h]
      | some item =>
        cases item <;> simp [cell?, usage?, modifyUsage, model, Body.model, Body.mapModel, h,
          ModelItem.member?, ModelItem.modifyMember, modify_of_getElem? h, cellAt?_eq,
          Function.comp_def, Cell.map]
  · cases slot with
    | flag i =>
      simp only [cell?, cellAt?_eq, Option.map_map]
      rfl
    | _ => rfl
  · cases slot <;> rfl

theorem exists_usage_of_cell? {d : Definition} {slot : Slot} {c : Cell Definition}
    (h : d.cell? slot = some c) :
    d.usage? slot = some c.usage ∧ ∀ v, c.put v = d.modifyUsage slot fun _ => v := by
  rw [cell?_eq] at h
  obtain ⟨u, hu, rfl⟩ := Option.map_eq_some_iff.1 h
  exact ⟨hu, fun _ => rfl⟩

theorem usage?_modifyUsage (d : Definition) (slot t : Slot) (f : Usage → Usage) :
    (d.modifyUsage slot f).usage? t = (d.usage? t).map fun u => if t = slot then f u else u := by
  rw [modifyUsage_eq_mapSlots, usage?_mapSlots]

theorem slots_modifyUsage (d : Definition) (slot : Slot) (f : Usage → Usage) :
    (d.modifyUsage slot f).usages.map (·.1) = d.usages.map (·.1) := by
  rw [modifyUsage_eq_mapSlots, usages_mapSlots, List.map_map]
  rfl

/-- But for its usages a definition stays what it is. -/
theorem mapUsages_modifyUsage (d : Definition) (slot : Slot) (f : Usage → Usage) (w : Usage) :
    ((d.modifyUsage slot f).mapUsages fun _ => w) = d.mapUsages fun _ => w := by
  rw [modifyUsage_eq_mapSlots, mapUsages_eq_mapSlots, mapUsages_eq_mapSlots, mapSlots_mapSlots]

/-- Only what is made of the usage at the slot counts. -/
theorem modifyUsage_congr {d : Definition} {slot : Slot} {f g : Usage → Usage}
    (h : ∀ u, d.usage? slot = some u → f u = g u) :
    d.modifyUsage slot f = d.modifyUsage slot g := by
  rw [modifyUsage_eq_mapSlots, modifyUsage_eq_mapSlots]
  refine mapSlots_congr fun su hsu => ?_
  split
  · next hs => exact h su.2 (hs ▸ mem_usages_iff.1 hsu)
  · rfl

theorem modifyUsage_self (d : Definition) (slot : Slot) : (d.modifyUsage slot fun u => u) = d := by
  rw [modifyUsage_eq_mapSlots]
  simp only [ite_self, mapSlots_self]

/-- Each slot is listed once, with the usage that is found there, and there is a cell exactly where
    a usage is found, with this usage in it. What is put into a cell is found at its slot, every
    other slot keeps its usage, the slots that are listed stay, and so does the definition when all
    usages in it are made equal; what was in the cell, put back, gives the definition itself.
    Changing the usage at a slot is putting what is made of it into the cell, and nothing where
    there is no cell. -/
theorem usages_by_slot (d : Definition) :
    (d.usages.map (·.1)).Nodup ∧
    (∀ slot u, (slot, u) ∈ d.usages ↔ d.usage? slot = some u) ∧
    (∀ slot, (d.cell? slot).map (·.usage) = d.usage? slot) ∧
    (∀ slot c, d.cell? slot = some c → c.put c.usage = d ∧ ∀ v,
      (c.put v).usage? slot = some v ∧
      (∀ t, t ≠ slot → (c.put v).usage? t = d.usage? t) ∧
      (c.put v).usages.map (·.1) = d.usages.map (·.1) ∧
      ∀ w, ((c.put v).mapUsages fun _ => w) = d.mapUsages fun _ => w) ∧
    ∀ slot f, d.modifyUsage slot f =
      match d.cell? slot with
      | some c => c.put (f c.usage)
      | none => d := by
  refine ⟨d.nodup_slots, fun _ _ => mem_usages_iff, fun slot => ?_, fun slot c hc => ?_,
    fun slot f => ?_⟩
  · rw [cell?_eq, Option.map_map]
    exact Option.map_id'
  · obtain ⟨hu, hput⟩ := exists_usage_of_cell? hc
    refine ⟨?_, fun v => ?_⟩
    · rw [hput]
      refine (modifyUsage_congr fun u h => ?_).trans (d.modifyUsage_self slot)
      exact Option.some.inj (hu.symm.trans h)
    · rw [hput]
      refine ⟨?_, fun t ht => ?_, d.slots_modifyUsage slot _, d.mapUsages_modifyUsage slot _⟩
      · rw [usage?_modifyUsage, hu, Option.map_some, if_pos rfl]
      · simp only [usage?_modifyUsage, ht, if_false, Option.map_id']
  · cases hc : d.cell? slot with
    | none =>
      rw [cell?_eq, Option.map_eq_none_iff] at hc
      refine (modifyUsage_congr fun u h => ?_).trans (d.modifyUsage_self slot)
      rw [hc] at h
      cases h
    | some c =>
      obtain ⟨hu, hput⟩ := exists_usage_of_cell? hc
      refine (modifyUsage_congr fun u h => ?_).trans (hput (f c.usage)).symm
      rw [hu] at h
      cases h
      rfl

end Definition

end SchemaFamily
