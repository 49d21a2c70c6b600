import SchemaFamily.Draft.Reading
import SchemaFamily.Proofs.Definition.Slots

/-
  What reading leaves to linking. A usage is *fresh* while its name, if it has one, is not
  resolved. `Yields` states what a reading makes of the definitions that were there before;
  every definition of a draft that was read is fresh (`Draft.fresh_of_read`), because
  usages are only ever made by reference or inline and nothing read later touches their targets.
-/

namespace SchemaFamily

open Xml

/-! ## Fresh usages -/

/-- No name of the usage is resolved. -/
def Usage.Fresh (u : Usage) : Prop :=
  ∀ name declaration, u.target ≠ .reference name (some declaration)

/-- No name of any usage of the definition is resolved. -/
def Definition.Fresh (d : Definition) : Prop := ∀ su ∈ d.usages, su.2.Fresh

/-- No name of any usage of the draft is resolved. -/
def Draft.Fresh (d : Draft) : Prop := ∀ drafted ∈ d.definitions, drafted.definition.Fresh

theorem Usage.fresh_reference (kind : Kind) (name : String) :
    (Usage.reference kind name).Fresh := by
  intro _ _ h
  cases h

theorem Usage.fresh_inline (kind : Kind) (id : DeclarationId) : (Usage.inline kind id).Fresh := by
  intro _ _ h
  cases h

theorem Usage.Fresh.of_target {u v : Usage} (hu : u.Fresh) (h : v.target = u.target) : v.Fresh := by
  intro name declaration he
  exact hu name declaration (h ▸ he)

theorem ModelItem.mem_usages_of_slotted {su : Slot × Usage} {item : Nat} {entry : ModelItem}
    (h : su ∈ entry.slotted item) : su.2 ∈ entry.usages := by
  rcases mem_slotted.1 h with ⟨_, hu⟩ | ⟨member, _, hu⟩
  · cases entry <;> simp_all [ModelItem.usage?, usages]
  · cases entry with
    | choice members => exact List.mem_of_getElem? hu
    | _ => simp [member?] at hu

theorem Definition.Fresh.of_parts {d : Definition} (hf : ∀ u ∈ d.flags, u.Fresh)
    (hm : ∀ item ∈ d.model, ∀ u ∈ item.usages, u.Fresh) : d.Fresh := by
  intro su hsu
  rcases List.mem_append.1 hsu with h | h
  · obtain ⟨⟨u, i⟩, hu, rfl⟩ := List.mem_map.1 h
    exact hf u (List.mem_of_getElem? (List.mem_zipIdx_iff_getElem?.1 hu))
  · obtain ⟨⟨item, i⟩, hi, hs⟩ := List.mem_flatMap.1 h
    exact hm item (List.mem_of_getElem? (List.mem_zipIdx_iff_getElem?.1 hi)) su.2
      (ModelItem.mem_usages_of_slotted hs)

theorem Usage.Fresh.rebase {u : Usage} (h : u.Fresh) (count : Nat) : (u.rebase count).Fresh := by
  rcases u with ⟨kind, target | target⟩
  · exact h
  · intro _ _ he
    cases he

theorem Definition.Fresh.rebase {d : Definition} (h : d.Fresh) (count : Nat) :
    (d.rebase count).Fresh := by
  intro su hsu
  rw [Definition.rebase, mapUsages_eq_mapSlots, usages_mapSlots] at hsu
  obtain ⟨⟨slot, u⟩, hu, rfl⟩ := List.mem_map.1 hsu
  exact (h (slot, u) hu).rebase count

/-! ## What a reading yields -/

/-- Whatever `r` reads when the definitions so far are as `P` says, its result and the definitions
    after it are as `Q` says. -/
def Yields {α : Type} (P : List Drafted → Prop) (r : Reading α) (Q : α → List Drafted → Prop) :
    Prop :=
  ∀ definitions, P definitions → ∀ a later, r.run definitions = .ok (a, later) → Q a later

namespace Yields

variable {α β : Type} {P : List Drafted → Prop} {Q : α → List Drafted → Prop}
  {R : β → List Drafted → Prop}

theorem pure {a : α} (h : ∀ definitions, P definitions → Q a definitions) :
    Yields P (Pure.pure a) Q := by
  intro definitions hp b later hr
  cases hr
  exact h definitions hp

theorem bind {r : Reading α} {f : α → Reading β} (hr : Yields P r Q)
    (hf : ∀ a, Yields (Q a) (f a) R) : Yields P (r >>= f) R := by
  intro definitions hp b later h
  rw [StateT.run_bind] at h
  cases hrun : r.run definitions with
  | error e =>
    rw [hrun] at h
    cases h
  | ok result =>
    rw [hrun] at h
    exact hf result.1 result.2 (hr definitions hp _ _ hrun) b later h

/-- What needs no definitions is read without touching them. -/
theorem lift {x : Except DraftError α} (h : ∀ a, x = .ok a → ∀ definitions, P definitions →
    Q a definitions) : Yields P (liftM x) Q := by
  intro definitions hp a later hr
  cases x with
  | error e => cases hr
  | ok b =>
    cases hr
    exact h a rfl definitions hp

/-- After a reading that touches no definition the rest is read as before. -/
theorem after {x : Except DraftError β} {f : β → Reading α}
    (h : ∀ b, x = .ok b → Yields P (f b) Q) :
    Yields P (liftM x >>= f) Q := by
  intro definitions hp a later hr
  cases x with
  | error e => cases hr
  | ok b => exact h b rfl definitions hp a later hr

theorem addDefinition {scope : Scope} {definition : Definition}
    {Q : DeclarationId → List Drafted → Prop}
    (h : ∀ definitions, P definitions →
      Q (.ofIndex definitions.length) (definitions ++ [⟨scope, definition⟩])) :
    Yields P (SchemaFamily.addDefinition scope definition) Q := by
  intro definitions hp a later hr
  cases hr
  exact h definitions hp

end Yields

/-! ## Readings of fresh definitions -/

/-- All definitions so far are fresh. -/
def AllFresh (definitions : List Drafted) : Prop :=
  ∀ drafted ∈ definitions, drafted.definition.Fresh

/-- What is read keeps the definitions fresh and is as `good` says. -/
def YieldsFresh {α : Type} (r : Reading α) (good : α → Prop) : Prop :=
  Yields AllFresh r fun a definitions => AllFresh definitions ∧ good a

theorem yieldsFresh_pure {α : Type} {good : α → Prop} {a : α} (h : good a) :
    YieldsFresh (pure a) good := Yields.pure fun _ hd => ⟨hd, h⟩

theorem yieldsFresh_bind {α β : Type} {r : Reading α} {f : α → Reading β} {good : α → Prop}
    {good' : β → Prop} (hr : YieldsFresh r good) (hf : ∀ a, good a → YieldsFresh (f a) good') :
    YieldsFresh (r >>= f) good' :=
  Yields.bind hr fun a definitions h => hf a h.2 definitions h.1

theorem yieldsFresh_addDefinition {scope : Scope} {definition : Definition}
    (h : definition.Fresh) : YieldsFresh (addDefinition scope definition) fun _ => True := by
  refine Yields.addDefinition fun definitions hd => ⟨?_, trivial⟩
  intro drafted hm
  rcases List.mem_append.1 hm with hm | hm
  · exact hd drafted hm
  · rw [List.mem_singleton.1 hm]
    exact h

/-- What an element says about an occurrence changes neither what is used nor its group. -/
theorem occurrence_keeps {u v : Usage} {e : Element} (h : occurrence u e = .ok v) :
    v.kind = u.kind ∧ v.target = u.target ∧ v.groupAs = u.groupAs := by
  unfold occurrence at h
  simp only [bind, Except.bind] at h
  repeat' split at h
  all_goals cases h
  exact ⟨rfl, rfl, rfl⟩

theorem occurrence_target {u v : Usage} {e : Element} (h : occurrence u e = .ok v) :
    v.target = u.target := (occurrence_keeps h).2.1

theorem yieldsFresh_occurrence {u : Usage} {e : Element} (hu : u.Fresh) :
    YieldsFresh (liftM (occurrence u e)) Usage.Fresh :=
  Yields.lift fun _ h _ hd => ⟨hd, hu.of_target (occurrence_target h)⟩

theorem fresh_flag (name : String) (metadata : Metadata) (body : FlagBody) :
    (Definition.mk name metadata (.flag body)).Fresh :=
  .of_parts (fun _ h => by cases h) (fun _ h => by cases h)

theorem yieldsFresh_defineFlag (scope : Scope) (e : Element) :
    YieldsFresh (defineFlag scope e) fun _ => True := by
  unfold defineFlag
  refine Yields.after fun name _ => ?_
  refine Yields.after fun datatype _ => ?_
  exact yieldsFresh_addDefinition (fresh_flag _ _ _)

theorem yieldsFresh_flagUsage (e : Element) : YieldsFresh (flagUsage e) Usage.Fresh := by
  unfold flagUsage
  split
  · refine yieldsFresh_bind (yieldsFresh_occurrence (Usage.fresh_reference _ _)) fun u hu => ?_
    exact Yields.after fun _ _ => yieldsFresh_pure (hu.of_target rfl)
  · split
    · exact Yields.lift fun a h => by cases h
    · refine Yields.after fun datatype _ => ?_
      refine yieldsFresh_bind (yieldsFresh_addDefinition (fresh_flag _ _ _)) fun id _ => ?_
      exact yieldsFresh_occurrence (Usage.fresh_inline _ _)

theorem yieldsFresh_flagUsages (es : List Element) :
    YieldsFresh (flagUsages es) fun us => ∀ u ∈ us, u.Fresh := by
  induction es with
  | nil => exact yieldsFresh_pure (by simp)
  | cons e later ih =>
    have hcons : ∀ u : Usage, u.Fresh →
        YieldsFresh (do return u :: (← flagUsages later)) fun us => ∀ u ∈ us, u.Fresh := by
      intro u hu
      refine yieldsFresh_bind ih fun us hus => yieldsFresh_pure ?_
      intro v hv
      rcases List.mem_cons.1 hv with rfl | hv
      · exact hu
      · exact hus v hv
    unfold flagUsages
    split
    · exact yieldsFresh_bind (yieldsFresh_flagUsage e) hcons
    · refine yieldsFresh_bind (yieldsFresh_defineFlag .inline e) fun id _ => ?_
      exact yieldsFresh_bind (yieldsFresh_occurrence (Usage.fresh_inline _ _)) hcons
    · exact ih

theorem yieldsFresh_defineField (scope : Scope) (e : Element) :
    YieldsFresh (defineField scope e) fun _ => True := by
  unfold defineField
  refine Yields.after fun name _ => ?_
  refine yieldsFresh_bind (yieldsFresh_flagUsages e.elements) fun flags hflags => ?_
  refine Yields.after fun datatype _ => ?_
  exact yieldsFresh_addDefinition (.of_parts hflags fun _ h => by cases h)

/-- Every usage in the entries of a model is fresh. -/
def FreshModel (items : List ModelItem) : Prop := ∀ item ∈ items, ∀ u ∈ item.usages, u.Fresh

theorem yieldsFresh_defineAssembly (scope : Scope) (e : Element)
    {model : Reading (List ModelItem)} (hm : YieldsFresh model FreshModel) :
    YieldsFresh (defineAssembly scope e model) fun _ => True := by
  unfold defineAssembly
  refine Yields.after fun name _ => ?_
  refine yieldsFresh_bind (yieldsFresh_flagUsages e.elements) fun flags hflags => ?_
  refine yieldsFresh_bind hm fun items hitems => ?_
  exact yieldsFresh_addDefinition (.of_parts hflags hitems)

theorem yieldsFresh_modelTarget {e : Element} {model : Reading (List ModelItem)}
    (hm : YieldsFresh model FreshModel) {target : Reading Usage}
    (h : modelTarget? e model = some target) : YieldsFresh target Usage.Fresh := by
  unfold modelTarget? at h
  split at h
  · cases h
    exact Yields.after fun name _ => yieldsFresh_pure (Usage.fresh_reference _ _)
  · cases h
    exact Yields.after fun name _ => yieldsFresh_pure (Usage.fresh_reference _ _)
  · cases h
    exact yieldsFresh_bind (yieldsFresh_defineAssembly .inline e hm) fun id _ =>
      yieldsFresh_pure (Usage.fresh_inline _ _)
  · cases h
    exact yieldsFresh_bind (yieldsFresh_defineField .inline e) fun id _ =>
      yieldsFresh_pure (Usage.fresh_inline _ _)
  · cases h

/-- How a field is wrapped says nothing about what is used. -/
theorem yieldsFresh_wrapping {e : Element} {u : Usage} (hu : u.Fresh) :
    YieldsFresh (do
      if u.kind = .field then
        match ← keyword? e "in-xml" FieldWrapping.ofKeyword with
        | some inXml => return { u with inXml }
        | none => return u
      else return u : Reading Usage) Usage.Fresh := by
  split
  · refine Yields.after fun wrapping _ => ?_
    split
    · exact yieldsFresh_pure (hu.of_target rfl)
    · exact yieldsFresh_pure hu
  · exact yieldsFresh_pure hu

theorem yieldsFresh_modelUsage {e : Element} {target : Reading Usage}
    (ht : YieldsFresh target Usage.Fresh) : YieldsFresh (modelUsage e target) Usage.Fresh := by
  unfold modelUsage
  refine yieldsFresh_bind ht fun u hu => ?_
  refine yieldsFresh_bind (yieldsFresh_occurrence hu) fun u hu => ?_
  split
  · refine Yields.after fun g _ => ?_
    refine yieldsFresh_bind (yieldsFresh_pure ?_) fun u hu => yieldsFresh_wrapping hu
    exact hu.of_target rfl
  · exact yieldsFresh_bind (yieldsFresh_pure hu) fun u hu => yieldsFresh_wrapping hu

mutual

theorem yieldsFresh_modelOf : ∀ nodes : List Node, YieldsFresh (modelOf nodes) FreshModel
  | [] => yieldsFresh_pure (by simp [FreshModel])
  | .text _ :: later => by
    unfold modelOf
    exact yieldsFresh_modelOf later
  | .element tag children :: later => by
    unfold modelOf
    split
    · exact yieldsFresh_modelItems children
    · exact yieldsFresh_modelOf later

theorem yieldsFresh_modelItems : ∀ nodes : List Node, YieldsFresh (modelItems nodes) FreshModel
  | [] => yieldsFresh_pure (by simp [FreshModel])
  | node :: later => by
    unfold modelItems
    refine yieldsFresh_bind (yieldsFresh_modelItem node) fun item hitem => ?_
    refine yieldsFresh_bind (yieldsFresh_modelItems later) fun items hitems => yieldsFresh_pure ?_
    intro entry he
    rcases List.mem_append.1 he with he | he
    · exact hitem entry (Option.mem_toList.1 he)
    · exact hitems entry he

theorem yieldsFresh_modelItem : ∀ node : Node,
    YieldsFresh (modelItem node) fun item => ∀ entry ∈ item, ∀ u ∈ entry.usages, u.Fresh
  | .text _ => yieldsFresh_pure (by simp)
  | .element tag children => by
    unfold modelItem
    split
    · refine yieldsFresh_bind (yieldsFresh_choiceMembers children) fun members hmembers =>
        yieldsFresh_pure ?_
      rintro entry he
      cases he
      exact hmembers
    · exact yieldsFresh_pure (by simp [ModelItem.usages])
    · exact yieldsFresh_pure (by simp [ModelItem.usages])
    · split
      · next target ht =>
        have := yieldsFresh_modelTarget (yieldsFresh_modelOf children) ht
        refine yieldsFresh_bind (yieldsFresh_modelUsage this) fun u hu => yieldsFresh_pure ?_
        rintro entry he
        cases he
        simpa [ModelItem.usages] using hu
      · exact yieldsFresh_pure (by simp)

theorem yieldsFresh_choiceMembers : ∀ nodes : List Node,
    YieldsFresh (choiceMembers nodes) fun us => ∀ u ∈ us, u.Fresh
  | [] => yieldsFresh_pure (by simp)
  | .text _ :: later => by
    unfold choiceMembers
    exact yieldsFresh_choiceMembers later
  | .element tag children :: later => by
    unfold choiceMembers
    split
    · next target ht =>
      have := yieldsFresh_modelTarget (yieldsFresh_modelOf children) ht
      refine yieldsFresh_bind (yieldsFresh_modelUsage this) fun u hu => ?_
      refine yieldsFresh_bind (yieldsFresh_choiceMembers later) fun us hus => yieldsFresh_pure ?_
      intro v hv
      rcases List.mem_cons.1 hv with rfl | hv
      · exact hu
      · exact hus v hv
    · exact yieldsFresh_choiceMembers later

end

theorem yieldsFresh_readBody (es : List Element) : YieldsFresh (readBody es) fun _ => True := by
  induction es with
  | nil => exact yieldsFresh_pure trivial
  | cons e later ih =>
    unfold readBody
    split
    · refine Yields.after fun href _ => ?_
      exact yieldsFresh_bind ih fun _ _ => yieldsFresh_pure trivial
    · exact yieldsFresh_bind (yieldsFresh_defineAssembly _ e (yieldsFresh_modelOf e.children))
        fun _ _ => ih
    · exact yieldsFresh_bind (yieldsFresh_defineField _ e) fun _ _ => ih
    · exact yieldsFresh_bind (yieldsFresh_defineFlag _ e) fun _ _ => ih
    · exact ih

/-- Reading resolves nothing. -/
theorem Draft.fresh_of_read {entities : EntityMap} {path : Path} {source : String} {draft : Draft}
    (h : Draft.read entities path source = .ok draft) : draft.Fresh := by
  unfold Draft.read at h
  split at h
  · cases h
  · next root _ =>
    unfold Draft.ofElement at h
    split at h
    · cases h
    · simp only [bind, Except.bind] at h
      split at h
      · cases h
      · next header _ =>
        cases hbody : (readBody root.elements).run [] with
        | error e =>
          rw [hbody] at h
          cases h
        | ok result =>
          rw [hbody] at h
          cases h
          exact (yieldsFresh_readBody root.elements [] (by simp [AllFresh]) _ _ hbody).1

end SchemaFamily
