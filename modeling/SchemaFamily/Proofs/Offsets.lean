import Mathlib.Algebra.GroupWithZero.Nat
import SchemaFamily.Handle

/-
  Handles that are moved. `offset` adds places to a handle and stops at the last one; `offset?` does
  so as long as the sum of the indices is a 64-bit word (`offset?_eq_some_iff`). The last handle is
  met long before the last word, so where there is a result it is exact up to the last handle,
  keeps the order of handles and of places, and may be had in two moves (`offset_offset`). What has
  no result is left: there the sum of the indices is past all words (`offset_past_words`).
-/

namespace SchemaFamily.Handle

variable {arena : Arena}

theorem raw_injective {h k : Handle arena} (he : h.raw = k.raw) : h = k :=
  ext (Nat.succ.inj he)

theorem offset?_eq_some_iff {h k : Handle arena} {n : Nat} :
    h.offset? n = some k ↔ h.index + n < 2 ^ 64 ∧ h.offset n = k := by
  simp only [offset?, Nat.pow_eq, Option.ite_none_right_eq_some, Option.some.injEq]

theorem le_raw_offset (h : Handle arena) (n : Nat) : h.raw ≤ (h.offset n).raw := by
  have := h.raw_le
  rw [raw_offset]
  omega

theorem raw_offset_mono {h h' : Handle arena} {n n' : Nat} (hh : h.raw ≤ h'.raw) (hn : n ≤ n') :
    (h.offset n).raw ≤ (h'.offset n').raw := by
  rw [raw_offset, raw_offset]
  omega

/-- Two moves are one: what is past the last handle stays there. -/
theorem offset_offset (h : Handle arena) (n m : Nat) :
    (h.offset n).offset m = h.offset (n + m) := by
  apply raw_injective
  rw [raw_offset, raw_offset, raw_offset]
  omega

/-- Moving a handle never moves its index further than the places. -/
theorem index_offset_le (h : Handle arena) (n : Nat) : (h.offset n).index ≤ h.index + n := by
  rw [offset, index_ofIndex]
  exact Nat.min_le_left _ _

/-- A handle that is moved by `n` places has a result exactly when the sum of its index and `n` is
    a 64-bit word, and the number of the result is that of the handle and `n` more, but never past
    the greatest 32-bit number. So the result is that of the index `n` places later and never
    smaller than the handle; a smaller handle or fewer places have a result too, and not a greater
    one; and what one move results in, two moves of as many places in all result in. -/
theorem offsets_saturate (h : Handle arena) (n : Nat) :
    (∀ k, h.offset? n = some k ↔
      h.index + n < 2 ^ 64 ∧ k.raw = min (h.raw + n) (2 ^ 32 - 1)) ∧
    (∀ k, h.offset? n = some k → k = ofIndex (h.index + n) ∧ h.raw ≤ k.raw ∧
      ∀ (h' : Handle arena) (n' : Nat), h'.raw ≤ h.raw → n' ≤ n →
        ∃ k', h'.offset? n' = some k' ∧ k'.raw ≤ k.raw) ∧
    ∀ m k, (h.offset? (n + m) = some k → (h.offset? n).bind (·.offset? m) = some k) ∧
      ((h.offset? n).bind (·.offset? m) = some k → h.offset (n + m) = k) := by
  refine ⟨fun k => ?_, fun k hk => ?_, fun m k => ⟨fun hk => ?_, fun hk => ?_⟩⟩
  · rw [offset?_eq_some_iff]
    refine and_congr_right fun _ => ⟨?_, fun hk => raw_injective ?_⟩
    · rintro rfl
      exact h.raw_offset n
    · exact (h.raw_offset n).trans hk.symm
  · obtain ⟨hword, rfl⟩ := offset?_eq_some_iff.1 hk
    refine ⟨rfl, h.le_raw_offset n, fun h' n' hh hn => ?_⟩
    have hindex : h'.index ≤ h.index := Nat.succ_le_succ_iff.1 hh
    exact ⟨_, offset?_eq_some_iff.2 ⟨by omega, rfl⟩, raw_offset_mono hh hn⟩
  · obtain ⟨hword, rfl⟩ := offset?_eq_some_iff.1 hk
    have hle := h.index_offset_le n
    rw [offset?_eq_some_iff.2 ⟨by omega, rfl⟩, Option.bind_some, offset?_eq_some_iff]
    exact ⟨by omega, h.offset_offset n m⟩
  · obtain ⟨k', hk', hk⟩ := Option.bind_eq_some_iff.1 hk
    obtain ⟨_, rfl⟩ := offset?_eq_some_iff.1 hk'
    obtain ⟨_, rfl⟩ := offset?_eq_some_iff.1 hk
    exact (h.offset_offset n m).symm

/-- The second handle cannot be moved by the greatest 64-bit number of places. -/
theorem offset_past_words :
    2 ^ 64 - 1 < 2 ^ 64 ∧ (ofIndex 1 : DeclarationId).offset? (2 ^ 64 - 1) = none := by
  decide

end SchemaFamily.Handle
