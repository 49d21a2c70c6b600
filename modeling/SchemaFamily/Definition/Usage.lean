import SchemaFamily.Handle
import SchemaFamily.Text.Position
import SchemaFamily.Vocabulary.Keyword

/-
  Usages. A definition uses other definitions: by name, until the name is resolved to a
  declaration, or by an inline declaration of its own. A usage says how often it occurs, how its
  values are grouped, and what it says about them in place. Once resolved a target stays
  (`resolve_of_resolved`), and an inline target is never resolved.
-/

namespace SchemaFamily

/-- The group that the values of a usage form. -/
structure GroupAs where
  name : String
  inJson : JsonGrouping := default
  inXml : XmlGrouping := default
deriving DecidableEq, Repr

/-- The group has two shapes to reconcile in the key and value notation. -/
def GroupAs.requiresMultiplexer (g : GroupAs) : Bool :=
  match g.inJson with
  | .singletonOrArray | .byKey => true
  | .array => false

/-- The name of the element around the group, if it has one. -/
def GroupAs.xmlWrapper? (g : GroupAs) : Option String :=
  match g.inXml with
  | .grouped => some g.name
  | .ungrouped => none

/-- What a usage uses. -/
inductive Target where
  | reference (name : String) (resolved : Option DeclarationId)
  | inline (declaration : DeclarationId)
deriving DecidableEq, Repr

/-- One use of a definition inside another. -/
structure Usage where
  kind : Kind
  target : Target
  groupAs : Option GroupAs := none
  required : Bool := false
  minOccurs : Nat := 0
  maxOccurs : MaxOccurs := .bounded 1
  inXml : FieldWrapping := default
  datatype : Option Datatype := none
  allowedValues : List String := []
  description : Option String := none
  remarks : Option String := none
  position : Position := .unknown
deriving DecidableEq, Repr

namespace Usage

/-- A usage of what `name` will be resolved to. -/
def reference (kind : Kind) (name : String) : Usage := { kind, target := .reference name none }

/-- A usage of an inline declaration. -/
def inline (kind : Kind) (declaration : DeclarationId) : Usage :=
  { kind, target := .inline declaration }

/-- The name that the usage refers by. -/
def referenceName? (u : Usage) : Option String :=
  match u.target with
  | .reference name _ => some name
  | .inline _ => none

/-- The declaration that is used, once it is known. -/
def declaration? (u : Usage) : Option DeclarationId :=
  match u.target with
  | .reference _ resolved => resolved
  | .inline declaration => some declaration

/-- The name that is still to be resolved. -/
def pendingName? (u : Usage) : Option String :=
  match u.target with
  | .reference name none => some name
  | _ => none

/-- The usage with its name resolved, unless it was resolved before or has no name. -/
def resolve (u : Usage) (declaration : DeclarationId) : Usage :=
  match u.target with
  | .reference name none => { u with target := .reference name (some declaration) }
  | _ => u

theorem resolve_of_not_pending {u : Usage} (h : u.pendingName? = none) (d : DeclarationId) :
    u.resolve d = u := by
  unfold resolve
  unfold pendingName? at h
  split
  · next ht => simp [ht] at h
  · rfl

theorem declaration?_resolve {u : Usage} {name : String} (h : u.pendingName? = some name)
    (d : DeclarationId) : (u.resolve d).declaration? = some d := by
  unfold pendingName? at h
  split at h
  · next ht => simp [resolve, ht, declaration?]
  · cases h

theorem pendingName?_resolve (u : Usage) (d : DeclarationId) :
    (u.resolve d).pendingName? = none := by
  rcases u with ⟨kind, ⟨name, _ | _⟩ | declaration⟩ <;> rfl

/-- The values form a group with two shapes to reconcile. -/
def requiresMultiplexer (u : Usage) : Bool := u.groupAs.any (·.requiresMultiplexer)

/-- The usage after `count` declarations were put before those that its handles number. -/
def rebase (u : Usage) (count : Nat) : Usage :=
  match u.target with
  | .inline declaration => { u with target := .inline (declaration.offset count) }
  | .reference _ _ => u

end Usage

/-- An entry in the model of an assembly. -/
inductive ModelItem where
  | usage (u : Usage)
  | choice (members : List Usage)
  | prose
  | any
deriving DecidableEq, Repr

namespace ModelItem

/-- The usages of an entry. -/
def usages : ModelItem → List Usage
  | .usage u => [u]
  | .choice members => members
  | .prose | .any => []

/-- The entry with each usage changed by `f`. -/
def mapUsages (f : Usage → Usage) : ModelItem → ModelItem
  | .usage u => .usage (f u)
  | .choice members => .choice (members.map f)
  | .prose => .prose
  | .any => .any

end ModelItem

end SchemaFamily
