import Mathlib.Data.String.Basic

/-
  Texts as bytes. A text is written in UTF-8, where a character takes as many bytes as the size of
  its number asks for, and the first byte tells how many. A smaller character has the smaller bytes,
  and the difference is within the bytes of both (`encoded_lt`), so texts stand in the order of
  their bytes exactly when they stand in the order of their characters (`lt_iff_bytes_lt`).
-/

namespace SchemaFamily

open String

/-- A text as the bytes it is written with. -/
def bytes (s : String) : List UInt8 := s.toUTF8.data.toList

theorem bytes_eq (s : String) : bytes s = s.toList.flatMap utf8EncodeChar := by
  conv => lhs; rw [← String.ofList_toList (s := s)]
  rw [bytes, String.toUTF8_eq_toByteArray, String.toByteArray_ofList, List.utf8Encode,
    List.toList_data_toByteArray]

/-! ## One character -/

/-- The first in which two numbers differ of their digits of six bits tells which is smaller. -/
theorem digits_lt {n m : Nat} (h : n < m) (hm : m < 0x110000) :
    n / 262144 % 8 < m / 262144 % 8 ∨ n / 262144 % 8 = m / 262144 % 8 ∧
      (n / 4096 % 64 < m / 4096 % 64 ∨ n / 4096 % 64 = m / 4096 % 64 ∧
        (n / 64 % 64 < m / 64 % 64 ∨ n / 64 % 64 = m / 64 % 64 ∧ n % 64 < m % 64)) := by
  rw [Nat.mod_eq_of_lt (show n / 262144 < 8 by omega),
    Nat.mod_eq_of_lt (show m / 262144 < 8 by omega)]
  by_cases h₁ : n / 64 = m / 64
  · omega
  · by_cases h₂ : n / 4096 = m / 4096
    · omega
    · omega

theorem ofNat_cons_lt {x y : Nat} (hx : x < 256) (hy : y < 256) {s t : List UInt8} :
    UInt8.ofNat x :: s < UInt8.ofNat y :: t ↔ x < y ∨ x = y ∧ s < t := by
  rw [List.cons_lt_cons_iff, UInt8.lt_iff_toNat_lt, ← UInt8.toNat_inj, UInt8.toNat_ofNat',
    UInt8.toNat_ofNat', Nat.mod_eq_of_lt hx, Nat.mod_eq_of_lt hy]

/-- A smaller character has smaller bytes, whatever follows. -/
theorem encoded_lt {c d : Char} (h : c < d) (s t : List UInt8) :
    utf8EncodeChar c ++ s < utf8EncodeChar d ++ t := by
  have hcd : c.val.toNat < d.val.toNat := h
  have hd : d.val.toNat < 0x110000 := by
    rcases d.valid with h | h
    · exact Nat.lt_trans h (by decide)
    · exact h.2
  simp only [utf8EncodeChar]
  generalize c.val.toNat = n at *
  generalize d.val.toNat = m at *
  have hdigits := digits_lt hcd hd
  -- one case for each pair of lengths: a longer form starts with a greater byte
  split_ifs <;>
    simp (disch := omega) only [List.cons_append, List.nil_append, ofNat_cons_lt] <;> omega

/-! ## Texts -/

theorem flatMap_encoded_lt {s t : List Char} (h : s < t) :
    s.flatMap utf8EncodeChar < t.flatMap utf8EncodeChar := by
  induction s generalizing t with
  | nil =>
    cases t with
    | nil => exact absurd h (List.lt_irrefl _)
    | cons d t =>
      obtain ⟨b, bs, hb⟩ := List.exists_cons_of_ne_nil (utf8EncodeChar_ne_nil (c := d))
      rw [List.flatMap_nil, List.flatMap_cons, hb]
      exact List.nil_lt_cons _ _
  | cons c s ih =>
    cases t with
    | nil => exact absurd h (List.not_lt_nil _)
    | cons d t =>
      rw [List.flatMap_cons, List.flatMap_cons]
      rcases List.cons_lt_cons_iff.1 h with hcd | ⟨rfl, hst⟩
      · exact encoded_lt hcd _ _
      · exact List.append_left_lt (ih hst)

/-- Texts stand in the order of their bytes. -/
theorem lt_iff_bytes_lt {s t : String} : s < t ↔ bytes s < bytes t := by
  rw [String.lt_iff_toList_lt, bytes_eq, bytes_eq]
  refine ⟨flatMap_encoded_lt, fun h => ?_⟩
  by_contra hst
  rcases List.le_iff_lt_or_eq.1 (List.not_lt.1 hst) with hts | hts
  · exact List.lt_asymm h (flatMap_encoded_lt hts)
  · rw [hts] at h
    exact List.lt_irrefl _ h

end SchemaFamily
