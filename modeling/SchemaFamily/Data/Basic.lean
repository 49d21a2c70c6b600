/-
  Plain data. Everything that is shown or written outside is first made a `Data`: a tree of lists
  and records with the fields in a fixed order, where a choice between kinds of values is a
  variant with its name. `ToData` says how a type is shown.
-/

namespace SchemaFamily

/-- A tree of plain values. -/
inductive Data where
  | null
  | bool (b : Bool)
  | number (n : Nat)
  | text (content : String)
  | list (items : List Data)
  | record (fields : List (String × Data))
  | variant (name : String) (payload : Data)
deriving Repr, Inhabited

/-- How the values of a type are shown. -/
class ToData (α : Type) where
  toData : α → Data

export ToData (toData)

instance : ToData Bool := ⟨.bool⟩

instance : ToData Nat := ⟨.number⟩

instance : ToData String := ⟨.text⟩

instance {α : Type} [ToData α] : ToData (Option α) where
  toData
    | none => .null
    | some a => toData a

instance {α : Type} [ToData α] : ToData (List α) := ⟨fun items => .list (items.map toData)⟩

end SchemaFamily
