import Mathlib

/-! Bit masks: building one from a list of tests, its lowest set bit, and
clearing that bit. Walking a mask in this way visits its set bits in order. -/

namespace BitMask

/-- Bit `i` is the `i`-th test. -/
def movemask (tests : List Bool) : ℕ := tests.foldr Nat.bit 0

/-- The number of trailing zeros of a `width`-bit word, `width` for zero. -/
def tzcnt (width mask : ℕ) : ℕ := ((List.range width).find? mask.testBit).getD width

def IsLowest (mask i : ℕ) : Prop := mask.testBit i = true ∧ ∀ j < i, mask.testBit j = false

@[simp] theorem testBit_movemask (tests : List Bool) (i : ℕ) :
    (movemask tests).testBit i = tests.getD i false := by
  induction tests generalizing i with
  | nil => simp [movemask]
  | cons b tests ih =>
    cases i with
    | zero => exact Nat.testBit_bit_zero _ _
    | succ i => exact (Nat.testBit_bit_succ _ _ _).trans (ih i)

theorem movemask_lt (tests : List Bool) : movemask tests < 2 ^ tests.length := by
  apply Nat.lt_pow_two_of_testBit
  intro i hi
  rw [testBit_movemask, List.getD_eq_default _ _ hi]

theorem ne_zero_iff {mask : ℕ} : mask ≠ 0 ↔ ∃ i, mask.testBit i = true := by
  constructor
  · exact Nat.exists_testBit_of_ne_zero
  · rintro ⟨i, hi⟩ rfl
    simp at hi

theorem testBit_lt {mask width i : ℕ} (h : mask < 2 ^ width) (hi : mask.testBit i = true) :
    i < width := by
  by_contra hw
  rw [Nat.testBit_lt_two_pow (h.trans_le (Nat.pow_le_pow_right (by omega) (by omega)))] at hi
  simp at hi

theorem tzcnt_isLowest {width mask : ℕ} (h : mask ≠ 0) (hw : mask < 2 ^ width) :
    IsLowest mask (tzcnt width mask) := by
  cases hf : (List.range width).find? mask.testBit with
  | none =>
    obtain ⟨i, hi⟩ := ne_zero_iff.mp h
    have := List.find?_eq_none.mp hf i (List.mem_range.mpr (testBit_lt hw hi))
    exact False.elim (this hi)
  | some i =>
    obtain ⟨hi, _, hlow⟩ := List.find?_range_eq_some.mp hf
    simp only [tzcnt, hf, Option.getD_some]
    exact ⟨hi, fun j hj => by simpa using hlow j hj⟩

/-- `mask & (mask - 1)` keeps a set bit exactly when a lower one is set. -/
theorem testBit_land_pred (mask i : ℕ) :
    (mask &&& (mask - 1)).testBit i = true ↔
      mask.testBit i = true ∧ ∃ j < i, mask.testBit j = true := by
  induction mask using Nat.binaryRec generalizing i with
  | zero => simp
  | bit b n ih =>
    have hpred : Nat.bit true n - 1 = Nat.bit false n := by simp [Nat.bit]
    cases b with
    | true =>
      rw [hpred, Nat.land_bit, Nat.and_self]
      cases i with
      | zero => simp [Nat.bit]
      | succ i =>
        simp only [Nat.testBit_bit_succ]
        exact ⟨fun h => ⟨h, 0, by omega, Nat.testBit_bit_zero _ _⟩, fun h => h.1⟩
    | false =>
      by_cases hn : n = 0
      · simp [hn, Nat.bit]
      · have hb : Nat.bit false n - 1 = Nat.bit true (n - 1) := by
          simp only [Nat.bit, cond_true, cond_false]
          omega
        rw [hb, Nat.land_bit]
        cases i with
        | zero => simp [Nat.bit]
        | succ i =>
          simp only [Nat.testBit_bit_succ, ih]
          refine and_congr_right fun _ => ⟨?_, ?_⟩
          · intro hlow
            obtain ⟨j, hj, h⟩ := hlow
            exact ⟨j + 1, by omega, by rwa [Nat.testBit_bit_succ]⟩
          · intro hlow
            obtain ⟨j, hj, h⟩ := hlow
            cases j with
            | zero => simp [Nat.bit] at h
            | succ j => exact ⟨j, by omega, by rwa [Nat.testBit_bit_succ] at h⟩

theorem IsLowest.testBit_land_pred {mask low : ℕ} (h : IsLowest mask low) (i : ℕ) :
    (mask &&& (mask - 1)).testBit i = true ↔ mask.testBit i = true ∧ i ≠ low := by
  rw [BitMask.testBit_land_pred]
  refine and_congr_right fun hi => ⟨?_, ?_⟩
  · rintro ⟨j, hj, hjt⟩ rfl
    simp [h.2 j hj] at hjt
  · intro hne
    refine ⟨low, ?_, h.1⟩
    by_contra hlt
    have := h.2 i (by omega)
    simp [this] at hi

theorem land_pred_lt {mask : ℕ} (h : mask ≠ 0) : mask &&& (mask - 1) < mask :=
  Nat.and_le_right.trans_lt (by omega)

end BitMask
