import Mathlib.Data.List.Forall2
import SchemaFamily.Proofs.Draft.Fresh

/-
  Which elements define something, and what it is used by. `definedInBody` lists the elements of a
  document that define something in the order in which they end, the flags of a definition before
  its model. `Drawn` says of the definitions read so far that they are those of some
  elements, and that every inline definition among them is used exactly once: by a definition that
  comes later, or by a usage that is still in hand. Adding a definition puts what is in hand into it
  (`Drawn.add`).
-/

namespace SchemaFamily

open Xml

/-! ## Elements that define something -/

/-- An element that defines something, with the scope and the kind of what it defines. -/
structure Defining where
  scope : Scope
  kind : Kind
  element : Element

/-- The definition is what the element defines. -/
structure Defining.Makes (x : Defining) (d : Drafted) : Prop where
  scope : d.scope = x.scope
  kind : d.definition.kind = x.kind
  name : x.element.attribute? "name" = some d.definition.name
  metadata : d.definition.metadata = metadataOf x.element

/-- The element defines a flag in place: it says so, or it names a flag and refers to none. -/
def Xml.Element.definesFlag (e : Element) : Bool :=
  e.name == "define-flag" || (e.name == "flag" && (e.attribute? "ref").isNone)

/-- The flags that are defined in place among some elements. -/
def definedFlags (es : List Element) : List Defining :=
  (es.filter Element.definesFlag).map (⟨.inline, .flag, ·⟩)

/-- What an element with an assembly or a field defines, itself last; `model` is what the model of
    the assembly defines. -/
def definedBy (scope : Scope) (e : Element) (model : List Defining) : List Defining :=
  match e.name with
  | "define-assembly" => definedFlags e.elements ++ model ++ [⟨scope, .assembly, e⟩]
  | "define-field" => definedFlags e.elements ++ [⟨scope, .field, e⟩]
  | _ => []

mutual

/-- What the model of an assembly defines: the first child that is a model counts. -/
def definedInModel : List Node → List Defining
  | [] => []
  | .text _ :: later => definedInModel later
  | .element tag children :: later =>
    if tag.name = "model" then definedInEntries children else definedInModel later

/-- What the entries of a model define. -/
def definedInEntries : List Node → List Defining
  | [] => []
  | node :: later => definedInEntry node ++ definedInEntries later

/-- What an entry of a model defines, a choice by its members. -/
def definedInEntry : Node → List Defining
  | .text _ => []
  | .element tag children =>
    if tag.name = "choice" then definedInMembers children
    else definedBy .inline ⟨tag, children⟩ (definedInModel children)

/-- What the members of a choice define. -/
def definedInMembers : List Node → List Defining
  | [] => []
  | .text _ :: later => definedInMembers later
  | .element tag children :: later =>
    definedBy .inline ⟨tag, children⟩ (definedInModel children) ++ definedInMembers later

end

/-- What the children of a root element define, each with what is defined in it first. -/
def definedInBody (es : List Element) : List Defining :=
  es.flatMap fun e =>
    if e.name = "define-flag" then [⟨.everywhere, .flag, e⟩]
    else definedBy .everywhere e (definedInModel e.children)

/-! ## Inline targets -/

/-- The kind of the usage and its inline target, if it has one. -/
def Usage.inlined? (u : Usage) : Option (Kind × DeclarationId) :=
  match u.target with
  | .inline id => some (u.kind, id)
  | .reference _ _ => none

theorem Usage.inlined?_congr {u v : Usage} (hkind : v.kind = u.kind)
    (htarget : v.target = u.target) : v.inlined? = u.inlined? := by
  rw [inlined?.eq_def, inlined?.eq_def, htarget, hkind]

/-- The inline targets among some usages. -/
def inlinedAmong (us : List Usage) : List (Kind × DeclarationId) := us.filterMap Usage.inlined?

/-- The inline targets in the entries of a model. -/
def inlinedInModel (items : List ModelItem) : List (Kind × DeclarationId) :=
  items.flatMap fun item => inlinedAmong item.usages

/-- The inline targets of a definition. -/
def Definition.inlined (d : Definition) : List (Kind × DeclarationId) :=
  inlinedAmong (d.usages.map (·.2))

theorem ModelItem.map_snd_slotted (item : Nat) (entry : ModelItem) :
    (entry.slotted item).map (·.2) = entry.usages := by
  cases entry with
  | choice members =>
    simp only [slotted, usages, List.map_map, Function.comp_def]
    exact List.zipIdx_map_fst 0 members
  | _ => rfl

/-- The usages of a definition are its flags and those in its model. -/
theorem Definition.map_snd_usages (d : Definition) :
    d.usages.map (·.2) = d.flags ++ d.model.flatMap ModelItem.usages := by
  simp only [usages, List.map_append, List.map_map, Function.comp_def, List.map_flatMap,
    ModelItem.map_snd_slotted]
  congr 1
  · exact List.zipIdx_map_fst 0 d.flags
  · conv_rhs => rw [← List.zipIdx_map_fst 0 d.model, List.flatMap_map]

theorem Definition.inlined_eq (d : Definition) :
    d.inlined = inlinedAmong d.flags ++ inlinedInModel d.model := by
  rw [inlined, map_snd_usages, inlinedAmong, List.filterMap_append, List.filterMap_flatMap]
  rfl

/-- The inline definitions among some definitions, with their kinds. -/
def inlineDefinitions (definitions : List Drafted) : List (Kind × DeclarationId) :=
  definitions.zipIdx.filterMap fun (d, i) =>
    if d.scope = .inline then some (d.definition.kind, .ofIndex i) else none

/-- What a usage of a definition of that scope has as its inline target. -/
def Scope.handed (scope : Scope) (kind : Kind) (id : DeclarationId) : List (Kind × DeclarationId) :=
  match scope with
  | .inline => [(kind, id)]
  | .everywhere => []

theorem mem_inlineDefinitions {definitions : List Drafted} {kind : Kind} {id : DeclarationId} :
    (kind, id) ∈ inlineDefinitions definitions ↔ ∃ j d, definitions[j]? = some d ∧
      d.scope = .inline ∧ d.definition.kind = kind ∧ id = .ofIndex j := by
  simp only [inlineDefinitions, List.mem_filterMap, Prod.exists, List.mem_zipIdx_iff_getElem?,
    Option.ite_none_right_eq_some, Option.some.injEq, Prod.mk.injEq]
  constructor
  · rintro ⟨d, j, hd, hs, hk, hid⟩
    exact ⟨j, d, hd, hs, hk, hid.symm⟩
  · rintro ⟨j, d, hd, hs, hk, hid⟩
    exact ⟨d, j, hd, hs, hk, hid.symm⟩

theorem inlineDefinitions_append_singleton (definitions : List Drafted) (d : Drafted) :
    inlineDefinitions (definitions ++ [d]) = inlineDefinitions definitions ++
      d.scope.handed d.definition.kind (.ofIndex definitions.length) := by
  rw [inlineDefinitions, List.zipIdx_append, List.filterMap_append]
  congr 1
  cases hs : d.scope <;> simp [hs, Scope.handed]

/-! ## Definitions read so far -/

/-- The usage is one of a flag and its values form no group. -/
structure Usage.IsFlag (u : Usage) : Prop where
  kind : u.kind = .flag
  groupAs : u.groupAs = none

/-- The usage is one of an assembly or a field. -/
def Usage.IsModel (u : Usage) : Prop := u.kind = .assembly ∨ u.kind = .field

/-- Every usage in the entries of a model is one of an assembly or a field. -/
def IsModel (items : List ModelItem) : Prop := ∀ item ∈ items, ∀ u ∈ item.usages, u.IsModel

/-- What stands among the flags of the definition and what stands in its model are of the kinds
    that belong there. -/
structure Definition.Sorted (d : Definition) : Prop where
  flags : ∀ u ∈ d.flags, u.IsFlag
  model : IsModel d.model

/-- The definitions are those of the elements `made`. Each uses only inline definitions before it,
    and every inline definition is used once, by one of them or by what is in hand. -/
structure Drawn (made : List Defining) (held : List (Kind × DeclarationId))
    (definitions : List Drafted) : Prop where
  makes : List.Forall₂ Defining.Makes made definitions
  sorted : ∀ d ∈ definitions, d.definition.Sorted
  earlier : ∀ {i : Nat} {d : Drafted}, definitions[i]? = some d →
    ∀ x ∈ d.definition.inlined, x ∈ inlineDefinitions (definitions.take i)
  once : (inlineDefinitions definitions).Perm
    (definitions.flatMap (·.definition.inlined) ++ held)

theorem drawn_nil : Drawn [] [] [] := ⟨.nil, by simp, by simp, .nil⟩

/-- Adding a definition puts what is in hand last into it, and its handle in hand if it is
    inline. -/
theorem Drawn.add {made : List Defining} {held : List (Kind × DeclarationId)}
    {definitions : List Drafted} {x : Defining} {d : Drafted}
    (h : Drawn made (held ++ d.definition.inlined) definitions) (hx : x.Makes d)
    (hd : d.definition.Sorted) :
    Drawn (made ++ [x])
      (held ++ d.scope.handed d.definition.kind (.ofIndex definitions.length))
      (definitions ++ [d]) := by
  refine ⟨?_, ?_, ?_, ?_⟩
  · exact List.rel_append h.makes (.cons hx .nil)
  · intro d' hd'
    rcases List.mem_append.1 hd' with hd' | hd'
    · exact h.sorted d' hd'
    · rw [List.mem_singleton.1 hd']
      exact hd
  · intro i d' hi y hy
    by_cases hlt : i < definitions.length
    · rw [List.getElem?_append_left hlt] at hi
      rw [List.take_append_of_le_length (Nat.le_of_lt hlt)]
      exact h.earlier hi y hy
    · have hlast : i = definitions.length := by
        have := (List.getElem?_eq_some_iff.1 hi).1
        rw [List.length_append, List.length_singleton] at this
        omega
      subst hlast
      rw [List.getElem?_concat_length, Option.some.injEq] at hi
      subst hi
      rw [List.take_left]
      exact h.once.mem_iff.2 (by simp [hy])
  · rw [inlineDefinitions_append_singleton, List.flatMap_append, List.flatMap_singleton,
      ← List.append_assoc]
    refine List.Perm.append_right _ (h.once.trans ?_)
    rw [List.append_assoc]
    exact List.perm_append_comm.append_left _

end SchemaFamily
