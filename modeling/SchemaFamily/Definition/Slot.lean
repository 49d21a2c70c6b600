import SchemaFamily.Definition.Basic

/-
  Slots. A slot says where in a definition a usage stands: among the flags, as an entry of the
  model, or as a member of a choice. `usages` lists every usage with its slot, flags first and
  then the model in order; `usage?` looks one up and `modifyUsage` changes one.
-/

namespace SchemaFamily

/-- A place for a usage in a definition; all counted from 0. -/
inductive Slot where
  | flag (index : Nat)
  | model (item : Nat)
  | choice (item member : Nat)
deriving DecidableEq, Repr

/-- A usage in a family: the declaration that holds it and the slot. -/
structure UsageRef where
  declaration : DeclarationId
  slot : Slot
deriving DecidableEq, Repr

/-- The slot is not one of a flag. -/
def Slot.isModel : Slot → Bool
  | .flag _ => false
  | .model _ | .choice _ _ => true

/-- The usages of the model's entry number `item`, each with its slot. -/
def ModelItem.slotted (item : Nat) : ModelItem → List (Slot × Usage)
  | .usage u => [(.model item, u)]
  | .choice members => members.zipIdx.map fun (u, member) => (.choice item member, u)
  | .prose | .any => []

/-- The entry as a single usage. -/
def ModelItem.usage? : ModelItem → Option Usage
  | .usage u => some u
  | _ => none

/-- The entry's member of a choice. -/
def ModelItem.member? (member : Nat) : ModelItem → Option Usage
  | .choice members => members[member]?
  | _ => none

/-- The entry with a single usage changed by `f`. -/
def ModelItem.modifyUsage (f : Usage → Usage) : ModelItem → ModelItem
  | .usage u => .usage (f u)
  | item => item

/-- The entry with one member of a choice changed by `f`. -/
def ModelItem.modifyMember (member : Nat) (f : Usage → Usage) : ModelItem → ModelItem
  | .choice members => .choice (members.modify member f)
  | item => item

namespace Definition

/-- Every usage with its slot: the flags, then the model, in order. -/
def usages (d : Definition) : List (Slot × Usage) :=
  d.flags.zipIdx.map (fun (u, i) => (.flag i, u)) ++
    d.model.zipIdx.flatMap fun (item, i) => item.slotted i

/-- The usage at a slot. -/
def usage? (d : Definition) : Slot → Option Usage
  | .flag i => d.flags[i]?
  | .model i => d.model[i]?.bind ModelItem.usage?
  | .choice i member => d.model[i]?.bind (ModelItem.member? member)

/-- The definition with the usage at a slot changed by `f`. -/
def modifyUsage (d : Definition) (slot : Slot) (f : Usage → Usage) : Definition :=
  match slot with
  | .flag i => { d with body := d.body.mapFlags (·.modify i f) }
  | .model i => { d with body := d.body.mapModel (·.modify i (·.modifyUsage f)) }
  | .choice i member => { d with body := d.body.mapModel (·.modify i (·.modifyMember member f)) }

@[simp]
theorem kind_modifyUsage (d : Definition) (slot : Slot) (f : Usage → Usage) :
    (d.modifyUsage slot f).kind = d.kind := by
  cases slot <;> simp [modifyUsage, kind]

theorem mem_flag_usages {d : Definition} {i : Nat} {u : Usage} :
    (Slot.flag i, u) ∈ d.usages ↔ d.flags[i]? = some u := by
  simp only [usages, List.mem_append, List.mem_map, List.mem_flatMap]
  constructor
  · rintro (⟨⟨v, j⟩, h, he⟩ | ⟨⟨item, j⟩, _, h⟩)
    · cases he
      exact List.mem_zipIdx_iff_getElem?.1 h
    · cases item <;> simp [ModelItem.slotted] at h
  · intro h
    exact .inl ⟨(u, i), List.mem_zipIdx_iff_getElem?.2 h, rfl⟩

end Definition

end SchemaFamily
