import SchemaFamily.Handle
import SchemaFamily.Vocabulary.Keyword

/-
  The globals of a document: what a kind and a name stand for. The first declaration registered
  under a kind and a name is the one found, whatever is registered later (`get?_register_self`,
  `get?_register_of_ne`, `register_of_contains`).
-/

namespace SchemaFamily

/-- What kinds and names stand for in a document. -/
structure Globals where
  entries : List ((Kind × String) × DeclarationId) := []
deriving DecidableEq, Repr, Inhabited

namespace Globals

/-- What a kind and a name stand for. -/
def get? (g : Globals) (kind : Kind) (name : String) : Option DeclarationId :=
  g.entries.lookup (kind, name)

/-- Something is registered under a kind and a name. -/
def contains (g : Globals) (kind : Kind) (name : String) : Bool := (g.get? kind name).isSome

/-- Registers a declaration under a kind and a name, unless they already stand for one. -/
def register (g : Globals) (kind : Kind) (name : String) (id : DeclarationId) : Globals :=
  if g.contains kind name then g else ⟨g.entries ++ [((kind, name), id)]⟩

/-- Number of registered kinds and names. -/
def size (g : Globals) : Nat := g.entries.length

theorem register_of_contains {g : Globals} {kind : Kind} {name : String}
    (h : g.contains kind name = true) (id : DeclarationId) :
    g.register kind name id = g := by
  simp [register, h]

theorem get?_register_self {g : Globals} {kind : Kind} {name : String}
    (h : g.contains kind name = false) (id : DeclarationId) :
    (g.register kind name id).get? kind name = some id := by
  have hn : g.entries.lookup (kind, name) = none := by
    simpa [contains, get?] using h
  simp [register, h, get?, List.lookup_append, hn]

theorem get?_register_of_ne {g : Globals} {kind kind' : Kind} {name name' : String}
    (h : (kind', name') ≠ (kind, name)) (id : DeclarationId) :
    (g.register kind name id).get? kind' name' = g.get? kind' name' := by
  unfold register
  split
  · rfl
  · have hb : ((kind', name') == (kind, name)) = false := by simpa using h
    simp [get?, List.lookup_append, List.lookup_cons, hb]

end Globals

end SchemaFamily
