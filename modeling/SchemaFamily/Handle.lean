/-
  Handles. What a family holds is numbered, and a handle is such a number, counted from 1 and
  never above the greatest 32-bit number: numbers past it share the last handle
  (`raw_offset`). Handles of documents, declarations and multiplexers are different types.
-/

namespace SchemaFamily

/-- The collections that handles number. -/
inductive Arena where
  | documents
  | declarations
  | multiplexers
deriving DecidableEq, Repr

/-- The greatest index of a handle, counted from 0. -/
def maxIndex : Nat := Nat.pow 2 32 - 2

/-- The number of one thing in a collection, by its index counted from 0. -/
structure Handle (arena : Arena) where
  index : Nat
  index_le : index ≤ maxIndex
deriving DecidableEq, Repr

abbrev DocumentId := Handle .documents

abbrev DeclarationId := Handle .declarations

abbrev MultiplexerId := Handle .multiplexers

namespace Handle

variable {arena : Arena}

/-- The handle of an index; indices past the last share the last handle. -/
def ofIndex (index : Nat) : Handle arena := ⟨min index maxIndex, Nat.min_le_right _ _⟩

instance : Inhabited (Handle arena) := ⟨ofIndex 0⟩

/-- The number of a handle, counted from 1. -/
def raw (h : Handle arena) : Nat := h.index + 1

/-- The handle of a number, unless it is 0 or more than 32 bits wide. -/
def ofRaw? (n : Nat) : Option (Handle arena) :=
  if h : 1 ≤ n ∧ n - 1 ≤ maxIndex then some ⟨n - 1, h.2⟩ else none

/-- The handle `n` places later. -/
def offset (h : Handle arena) (n : Nat) : Handle arena := ofIndex (h.index + n)

/-- The handle `n` places later, where the sum of the indices is a 64-bit word. -/
def offset? (h : Handle arena) (n : Nat) : Option (Handle arena) :=
  if h.index + n < Nat.pow 2 64 then some (h.offset n) else none

/-- The number as messages show it. -/
def display (h : Handle arena) : String := s!"#{h.raw}"

theorem ext {a b : Handle arena} (h : a.index = b.index) : a = b := by
  cases a; cases b; cases h; rfl

theorem index_ofIndex (i : Nat) : (ofIndex i : Handle arena).index = min i maxIndex := rfl

theorem index_ofIndex_of_le {i : Nat} (h : i ≤ maxIndex) :
    (ofIndex i : Handle arena).index = i := Nat.min_eq_left h

@[simp]
theorem ofIndex_index (h : Handle arena) : ofIndex h.index = h :=
  ext (index_ofIndex_of_le h.index_le)

@[simp]
theorem ofRaw?_raw (h : Handle arena) : ofRaw? h.raw = some h := by
  have := h.index_le
  simp [ofRaw?, raw, this]

theorem raw_le (h : Handle arena) : h.raw ≤ maxIndex + 1 := by
  have := h.index_le
  rw [raw]
  omega

theorem raw_offset (h : Handle arena) (n : Nat) :
    (h.offset n).raw = min (h.raw + n) (maxIndex + 1) := by
  rw [offset, raw, raw, index_ofIndex]
  omega

end Handle

end SchemaFamily
