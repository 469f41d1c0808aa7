import SimdHash.Capacity
import SimdHash.Reciprocal

/-! The capacities that can be chosen, and the reduction of an index by each
mode's arithmetic. -/

namespace SimdHash

open BitMask

/-- Bit `i` of `y` is set when one of the `width` bits of `x` from `i` on is. -/
def Smeared (width x y : ℕ) : Prop :=
  ∀ i, y.testBit i = true ↔ ∃ d < width, x.testBit (i + d) = true

theorem Smeared.refl (x : ℕ) : Smeared 1 x x := by
  intro i
  constructor
  · intro h
    exact ⟨0, by omega, h⟩
  · intro hbit
    obtain ⟨d, hd, h⟩ := hbit
    obtain rfl : d = 0 := by omega
    exact h

theorem Smeared.double {width x y : ℕ} (h : Smeared width x y) :
    Smeared (width + width) x (y ||| y >>> width) := by
  intro i
  simp only [Nat.testBit_or, Nat.testBit_shiftRight, Bool.or_eq_true, h i, h (width + i)]
  constructor
  · rintro (⟨d, hd, hx⟩ | ⟨d, hd, hx⟩)
    · exact ⟨d, by omega, hx⟩
    · exact ⟨width + d, by omega, by rwa [show i + (width + d) = width + i + d by ring]⟩
  · intro hbit
    obtain ⟨d, hd, hx⟩ := hbit
    by_cases hlt : d < width
    · exact .inl ⟨d, hlt, hx⟩
    · refine .inr ⟨d - width, by omega, ?_⟩
      rwa [show width + i + (d - width) = i + d by omega]

theorem Smeared.eq {width x y : ℕ} (h : Smeared width x y) (hx : x ≠ 0)
    (hw : x.log2 < width) : y = 2 ^ (x.log2 + 1) - 1 := by
  apply Nat.eq_of_testBit_eq
  intro i
  rw [Nat.testBit_two_pow_sub_one, Bool.eq_iff_iff, h i, decide_eq_true_iff]
  constructor
  · intro hbit
    obtain ⟨d, -, hd⟩ := hbit
    have := testBit_lt (Nat.lt_log2_self (n := x)) hd
    omega
  · intro hi
    refine ⟨x.log2 - i, by omega, ?_⟩
    rw [show i + (x.log2 - i) = x.log2 by omega]
    exact Nat.testBit_log2 hx

/-- The round-up gives the least power of two that is not below its argument. -/
theorem roundUpToPowerOf2_spec {value : ℕ} (hpos : 0 < value) (hmax : value ≤ maxSize) :
    ∃ k, k ≤ 31 ∧ roundUpToPowerOf2 value = 2 ^ k ∧ value ≤ 2 ^ k ∧ 2 ^ k < 2 * value := by
  have hmax' : value ≤ 2 ^ 31 := hmax
  by_cases hp : resetLowestSetBit value = 0
  · obtain ⟨k, hk⟩ := (Nat.and_sub_one_eq_zero_iff_isPowerOfTwo hpos.ne').mp hp
    refine ⟨k, ?_, by rw [roundUpToPowerOf2, if_pos (.inr hp), hk], hk.le, by omega⟩
    rw [hk] at hmax'
    exact (Nat.pow_le_pow_iff_right (by decide)).mp hmax'
  · have hone : value ≠ 1 := by
      rintro rfl
      exact hp rfl
    have hx : value - 1 ≠ 0 := by omega
    have hlog : (value - 1).log2 < 31 := (Nat.log2_lt hx).mpr (by omega)
    have hsmear := ((((((Smeared.refl (value - 1)).double).double).double).double).double).eq hx
      (by omega)
    have hlow := Nat.log2_self_le hx
    have hhigh := Nat.lt_log2_self (n := value - 1)
    have hle : 2 ^ ((value - 1).log2 + 1) ≤ 2 ^ 31 := Nat.pow_le_pow_right (by decide) (by omega)
    refine ⟨(value - 1).log2 + 1, by omega, ?_, by omega, by rw [pow_succ]; omega⟩
    simp only [roundUpToPowerOf2, hpos.ne', hp, or_self, if_false]
    rw [hsmear, Nat.sub_add_cancel Nat.one_le_two_pow, Nat.mod_eq_of_lt (by omega)]

theorem roundUpToPowerOf2_ladder {size : ℕ} (h : minSize < size) (hmax : size < maxSize) :
    ∃ k, 12 ≤ k ∧ k ≤ 31 ∧ roundUpToPowerOf2 size = 2 ^ k ∧ size ≤ 2 ^ k := by
  obtain ⟨k, hk, heq, hle, -⟩ := roundUpToPowerOf2_spec (by omega) hmax.le
  have hlt : 2 ^ 12 < 2 ^ k := h.trans_le hle
  exact ⟨k, ((Nat.pow_lt_pow_iff_right (by decide)).mp hlt).le, hk, heq, hle⟩

def Mode.isPowerOfTwo (mode : Mode) : Prop := mode = .fast ∨ mode = .fastDivMod

theorem adjustCapacity_of_le {mode : Mode} {size : ℕ} (h : size ≤ minSize) :
    adjustCapacity mode size = minSize := if_pos h

theorem adjustCapacity_of_ge {mode : Mode} {size : ℕ} (h : maxSize ≤ size) :
    adjustCapacity mode size = maxSize := by
  have hmin : ¬ size ≤ minSize := by
    simp only [minSize, maxSize] at *
    omega
  simp [adjustCapacity, hmin, h]

theorem adjustCapacity_powerOfTwo {mode : Mode} (hm : mode.isPowerOfTwo) (size : ℕ) :
    ∃ k, 12 ≤ k ∧ k ≤ 31 ∧ adjustCapacity mode size = 2 ^ k ∧ (size ≤ maxSize → size ≤ 2 ^ k) := by
  by_cases hmin : size ≤ minSize
  · exact ⟨12, le_rfl, by decide, adjustCapacity_of_le hmin, fun _ => hmin⟩
  by_cases hmax : maxSize ≤ size
  · exact ⟨31, by decide, le_rfl, adjustCapacity_of_ge hmax, fun h => h⟩
  obtain ⟨k, h12, h31, heq, hle⟩ := roundUpToPowerOf2_ladder (not_le.mp hmin) (not_le.mp hmax)
  refine ⟨k, h12, h31, ?_, fun _ => hle⟩
  rw [adjustCapacity.eq_def, if_neg hmin, if_neg hmax]
  rcases hm with rfl | rfl <;> exact heq

section Bounds

/-- The table sizes in use: whole pages, from one page to `MAX_SIZE`. -/
structure IsCapacity (capacity : ℕ) : Prop where
  page : pageSize ∣ capacity
  min_le : minSize ≤ capacity
  le_max : capacity ≤ maxSize

theorem isCapacity_minSize : IsCapacity minSize := ⟨dvd_rfl, le_rfl, by decide⟩

theorem isCapacity_maxSize : IsCapacity maxSize := ⟨by decide, by decide, le_rfl⟩

theorem isCapacity_two_pow {k : ℕ} (h12 : 12 ≤ k) (h31 : k ≤ 31) : IsCapacity (2 ^ k) :=
  ⟨pow_dvd_pow 2 h12, Nat.pow_le_pow_right (n := 2) (by decide) h12,
    Nat.pow_le_pow_right (n := 2) (by decide) h31⟩

theorem isCapacity_subdivision {k pi i : ℕ} (h24 : 24 < k) (h31 : k ≤ 31) (hi : i < pi) :
    IsCapacity (subdivision (2 ^ k) pi i) := by
  obtain ⟨half, hhalf⟩ : ∃ half, 2 ^ k / 2 = half ∧ 2 ^ 24 ≤ half ∧ half ≤ 2 ^ 30 := by
    have hlow : 2 ^ 25 ≤ 2 ^ k := Nat.pow_le_pow_right (by decide) (by omega)
    have hhigh : 2 ^ k ≤ 2 ^ 31 := Nat.pow_le_pow_right (by decide) h31
    exact ⟨2 ^ k / 2, rfl, by omega, by omega⟩
  have hpart : half * i / pi ≤ half :=
    Nat.div_le_of_le_mul (by rw [mul_comm pi]; exact Nat.mul_le_mul_left _ hi.le)
  rw [subdivision, hhalf.1]
  generalize half * i / pi = part at hpart
  refine ⟨Nat.dvd_mul_left _ _, ?_, ?_⟩ <;>
    simp only [pageSize, minSize, maxSize] <;> omega

theorem isCapacity_subdividedCapacity {mode : Mode} {size : ℕ} (h : minSize < size)
    (hmax : size < maxSize) : IsCapacity (subdividedCapacity mode size) := by
  obtain ⟨k, h12, h31, hround, -⟩ := roundUpToPowerOf2_ladder h hmax
  have hpow := isCapacity_two_pow h12 h31
  simp only [subdividedCapacity, hround]
  split_ifs with h16
  · exact hpow
  · split
    · rename_i i hi
      have hmem := List.mem_range'_1.mp (List.mem_of_find?_eq_some hi)
      refine isCapacity_subdivision ?_ h31 (by omega)
      exact (Nat.pow_lt_pow_iff_right (a := 2) (by decide)).mp (not_le.mp h16)
    · exact hpow

theorem le_floor_div_max (size : ℕ) : size ≤ ⌊(size : ℚ) / LoadFactor.max⌋₊ := by
  apply Nat.le_floor
  rw [le_div_iff₀ (by norm_num [LoadFactor.max])]
  have : (0 : ℚ) ≤ size := Nat.cast_nonneg _
  norm_num [LoadFactor.max]
  linarith

theorem whole_pages (n : ℕ) :
    pageSize ∣ (if n % pageSize ≠ 0 then (n / pageSize + 1) * pageSize else n) ∧
      n ≤ if n % pageSize ≠ 0 then (n / pageSize + 1) * pageSize else n := by
  by_cases hp : n % pageSize = 0
  · rw [if_neg (not_not.mpr hp)]
    exact ⟨Nat.dvd_of_mod_eq_zero hp, le_rfl⟩
  · rw [if_pos hp]
    refine ⟨Nat.dvd_mul_left _ _, ?_⟩
    rw [mul_comm]
    exact (Nat.lt_mul_div_succ n (by decide)).le

theorem reservedCapacity_cases (size : ℕ) : reservedCapacity size = maxSize ∨
    pageSize ∣ reservedCapacity size ∧ size ≤ reservedCapacity size ∧
      reservedCapacity size < maxSize := by
  have hsize := le_floor_div_max size
  rw [reservedCapacity]
  generalize ⌊(size : ℚ) / LoadFactor.max⌋₊ = n at hsize
  dsimp only
  by_cases hn : n ≥ maxSize
  · rw [if_pos hn]
    exact .inl rfl
  rw [if_neg hn]
  have hround := whole_pages n
  generalize (if n % pageSize ≠ 0 then (n / pageSize + 1) * pageSize else n) = m at hround
  by_cases hm : m ≥ maxSize
  · rw [if_pos hm]
    exact .inl rfl
  · rw [if_neg hm]
    exact .inr ⟨hround.1, hsize.trans hround.2, not_le.mp hm⟩

theorem isCapacity_reservedCapacity {size : ℕ} (h : minSize < size) :
    IsCapacity (reservedCapacity size) := by
  rcases reservedCapacity_cases size with hmax | ⟨hpage, hsize, hlt⟩
  · rw [hmax]
    exact isCapacity_maxSize
  · exact ⟨hpage, h.le.trans hsize, hlt.le⟩

theorem adjustCapacity_isCapacity (mode : Mode) (size : ℕ) :
    IsCapacity (adjustCapacity mode size) := by
  by_cases hmin : size ≤ minSize
  · rw [adjustCapacity_of_le hmin]
    exact isCapacity_minSize
  by_cases hmax : maxSize ≤ size
  · rw [adjustCapacity_of_ge hmax]
    exact isCapacity_maxSize
  have hpow : IsCapacity (roundUpToPowerOf2 size) := by
    obtain ⟨k, h12, h31, hround, -⟩ := roundUpToPowerOf2_ladder (not_le.mp hmin) (not_le.mp hmax)
    exact hround ▸ isCapacity_two_pow h12 h31
  rw [adjustCapacity.eq_def, if_neg hmin, if_neg hmax]
  cases mode with
  | fast => exact hpow
  | fastDivMod => exact hpow
  | saveMemoryFast => exact isCapacity_subdividedCapacity (not_le.mp hmin) (not_le.mp hmax)
  | saveMemoryOpt => exact isCapacity_subdividedCapacity (not_le.mp hmin) (not_le.mp hmax)
  | saveMemoryMax => exact isCapacity_subdividedCapacity (not_le.mp hmin) (not_le.mp hmax)
  | resizeOnlyEmpty => exact isCapacity_reservedCapacity (not_le.mp hmin)

end Bounds

end SimdHash
