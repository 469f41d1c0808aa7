import SimdHash.Limits

/-! Capacity selection is exact: every mode but `ResizeOnlyEmpty` picks the
least member of its ladder that holds the size asked for. -/

namespace SimdHash

/-- The number of equal parts into which a mode divides the capacities between
`ph / 2` and `ph`. -/
def Mode.parts (ph : ℕ) : Mode → ℕ
  | saveMemoryFast => 2
  | saveMemoryOpt => 4
  | saveMemoryMax => if ph ≤ 64 * 2 ^ 20 then 4 else ph / (16 * 2 ^ 20)
  | _ => 1

/-- The powers of two and, above 16M slots, the ends of the parts between them. -/
def ladder (mode : Mode) : Set ℕ :=
  {capacity | ∃ k, 12 ≤ k ∧ k ≤ 31 ∧ capacity = 2 ^ k} ∪
  {capacity | ∃ k i, 24 < k ∧ k ≤ 31 ∧ 1 ≤ i ∧ i ≤ mode.parts (2 ^ k) ∧
    capacity = 2 ^ k / 2 + i * (2 ^ k / 2 / mode.parts (2 ^ k))}

section Parts

variable {mode : Mode} {k i : ℕ}

theorem parts_eq_one (hm : mode.isPowerOfTwo) (ph : ℕ) : mode.parts ph = 1 := by
  rcases hm with rfl | rfl <;> rfl

theorem parts_dvd (h24 : 24 < k) (h31 : k ≤ 31) : mode.parts (2 ^ k) ∣ 2 ^ k / 2 := by
  cases mode <;> interval_cases k <;> decide

/-- The subdivisions of the source are those parts, and its division and its
rounding down to whole pages are exact. -/
theorem subdivision_eq (hm : ¬ mode.isPowerOfTwo) (hr : mode ≠ .resizeOnlyEmpty) (h24 : 24 < k)
    (h31 : k ≤ 31) (i : ℕ) :
    subdivisions mode (2 ^ k) = mode.parts (2 ^ k) ∧
    subdivision (2 ^ k) (mode.parts (2 ^ k)) i =
      2 ^ k / 2 + i * (2 ^ k / 2 / mode.parts (2 ^ k)) := by
  cases mode with
  | fast => exact absurd (.inl rfl) hm
  | fastDivMod => exact absurd (.inr rfl) hm
  | resizeOnlyEmpty => exact absurd rfl hr
  | saveMemoryFast =>
    refine ⟨rfl, ?_⟩
    interval_cases k <;> norm_num [subdivision, Mode.parts, pageSize] <;> omega
  | saveMemoryOpt =>
    refine ⟨rfl, ?_⟩
    interval_cases k <;> norm_num [subdivision, Mode.parts, pageSize] <;> omega
  | saveMemoryMax =>
    constructor
    · interval_cases k <;> rfl
    · interval_cases k <;> norm_num [subdivision, Mode.parts, pageSize] <;> omega

theorem part_le (h24 : 24 < k) (h31 : k ≤ 31) (hi : i ≤ mode.parts (2 ^ k)) :
    2 ^ k / 2 + i * (2 ^ k / 2 / mode.parts (2 ^ k)) ≤ 2 ^ k := by
  have hmul : mode.parts (2 ^ k) * (2 ^ k / 2 / mode.parts (2 ^ k)) = 2 ^ k / 2 :=
    Nat.mul_div_cancel' (parts_dvd h24 h31)
  have hle := Nat.mul_le_mul_right (2 ^ k / 2 / mode.parts (2 ^ k)) hi
  omega

end Parts

section Least

variable {mode : Mode} {size capacity k : ℕ}

/-- A member of the ladder that holds `size` is at least `bound`, when the
powers of two and the parts of the interval of `size` are. -/
theorem le_of_mem_ladder {bound : ℕ} (hlt : 2 ^ k < 2 * size) (hbound : bound ≤ 2 ^ k)
    (hpart : ∀ i, 24 < k → k ≤ 31 → 1 ≤ i → i < mode.parts (2 ^ k) →
      size ≤ 2 ^ k / 2 + i * (2 ^ k / 2 / mode.parts (2 ^ k)) →
      bound ≤ 2 ^ k / 2 + i * (2 ^ k / 2 / mode.parts (2 ^ k)))
    (hmem : capacity ∈ ladder mode) (hsize : size ≤ capacity) : bound ≤ capacity := by
  have hpow (j : ℕ) (hj : size ≤ 2 ^ j) : k ≤ j := by
    have hdouble : 2 ^ k < 2 ^ (j + 1) := by
      rw [pow_succ]
      omega
    exact Nat.lt_succ_iff.mp ((Nat.pow_lt_pow_iff_right (by decide)).mp hdouble)
  rcases hmem with ⟨j, -, -, rfl⟩ | ⟨j, i, h24, h31, hi, hi', rfl⟩
  · exact hbound.trans (Nat.pow_le_pow_right (by decide) (hpow j hsize))
  · have hkj := hpow j (hsize.trans (part_le h24 h31 hi'))
    by_cases hj : k = j
    · subst j
      by_cases hlast : i = mode.parts (2 ^ k)
      · have hmul : mode.parts (2 ^ k) * (2 ^ k / 2 / mode.parts (2 ^ k)) = 2 ^ k / 2 :=
          Nat.mul_div_cancel' (parts_dvd h24 h31)
        have heven : 2 ∣ 2 ^ k := dvd_pow_self 2 (by omega)
        rw [hlast, hmul]
        omega
      · exact hpart i h24 h31 hi (by omega) hsize
    · have hhalf : 2 ^ k ≤ 2 ^ (j - 1) := Nat.pow_le_pow_right (by decide) (by omega)
      have hdouble : 2 ^ j = 2 ^ (j - 1) * 2 := by
        rw [← pow_succ, Nat.sub_add_cancel (by omega)]
      omega

theorem subdividedCapacity_isLeast (hm : ¬ mode.isPowerOfTwo) (hr : mode ≠ .resizeOnlyEmpty)
    (h : minSize < size) (hmax : size < maxSize) :
    IsLeast {capacity | capacity ∈ ladder mode ∧ size ≤ capacity} (subdividedCapacity mode size) := by
  obtain ⟨k, h31, hround, hle, hlt⟩ := roundUpToPowerOf2_spec (by omega) hmax.le
  have h12 : 12 ≤ k := by
    have hpow : 2 ^ 12 < 2 ^ k := h.trans_le hle
    exact ((Nat.pow_lt_pow_iff_right (by decide)).mp hpow).le
  have hmem : 2 ^ k ∈ ladder mode := .inl ⟨k, h12, h31, rfl⟩
  rw [subdividedCapacity, hround]
  by_cases h16 : 2 ^ k ≤ 16 * 1024 * 1024
  · have h24 : k ≤ 24 := (Nat.pow_le_pow_iff_right (a := 2) (by decide)).mp h16
    rw [if_pos h16]
    exact ⟨⟨hmem, hle⟩, fun capacity hc =>
      le_of_mem_ladder hlt le_rfl (fun i hk => absurd hk (by omega)) hc.1 hc.2⟩
  · have h24 : 24 < k := by
      by_contra hk
      exact h16 (Nat.pow_le_pow_right (n := 2) (by decide) (not_lt.mp hk))
    have hsub (i : ℕ) := subdivision_eq hm hr h24 h31 i
    simp only [if_neg h16, (hsub 0).1, (hsub _).2]
    cases hfind : (List.range' 1 (mode.parts (2 ^ k) - 1)).find? fun i =>
        size ≤ 2 ^ k / 2 + i * (2 ^ k / 2 / mode.parts (2 ^ k)) with
    | none =>
      have hnone := List.find?_range'_eq_none.mp hfind
      refine ⟨⟨hmem, hle⟩, fun capacity hc => le_of_mem_ladder hlt le_rfl ?_ hc.1 hc.2⟩
      intro i _ _ hi hi' hsize
      simpa [hsize] using hnone i hi (by omega)
    | some i =>
      obtain ⟨hsize, hrange, hbefore⟩ := List.find?_range'_eq_some.mp hfind
      obtain ⟨hi, hi'⟩ := List.mem_range'_1.mp hrange
      have hparts : i ≤ mode.parts (2 ^ k) := by omega
      refine ⟨⟨.inr ⟨k, i, h24, h31, hi, hparts, rfl⟩, by simpa using hsize⟩, fun capacity hc =>
        le_of_mem_ladder hlt (part_le h24 h31 hparts) ?_ hc.1 hc.2⟩
      intro j _ _ hj _ hjsize
      have hij : i ≤ j := by
        by_contra hji
        simpa [hjsize] using hbefore j hj (by omega)
      exact Nat.add_le_add_left (Nat.mul_le_mul_right _ hij) _

theorem adjustCapacity_isLeast (hr : mode ≠ .resizeOnlyEmpty) (hmax : size ≤ maxSize) :
    IsLeast {capacity | capacity ∈ ladder mode ∧ size ≤ capacity} (adjustCapacity mode size) := by
  by_cases hmin : size ≤ minSize
  · rw [adjustCapacity_of_le hmin]
    refine ⟨⟨.inl ⟨12, le_rfl, by decide, rfl⟩, hmin⟩, fun capacity hc => ?_⟩
    have hlow : 2 ^ 12 ≤ capacity := by
      rcases hc.1 with ⟨k, h12, -, rfl⟩ | ⟨k, i, h24, h31, -, -, rfl⟩
      · exact Nat.pow_le_pow_right (by decide) h12
      · have hhalf : 2 ^ 13 ≤ 2 ^ k := Nat.pow_le_pow_right (by decide) (by omega)
        omega
    exact hlow
  by_cases hge : maxSize ≤ size
  · obtain rfl : size = maxSize := le_antisymm hmax hge
    rw [adjustCapacity_of_ge le_rfl]
    exact ⟨⟨.inl ⟨31, by decide, le_rfl, rfl⟩, le_rfl⟩, fun capacity hc => hc.2⟩
  have hlt := not_le.mp hge
  by_cases hm : mode.isPowerOfTwo
  · obtain ⟨k, h31, hround, hle, hdouble⟩ := roundUpToPowerOf2_spec (by omega) hlt.le
    have hchosen : adjustCapacity mode size = 2 ^ k := by
      rw [adjustCapacity.eq_def, if_neg hmin, if_neg hge, ← hround]
      rcases hm with rfl | rfl <;> rfl
    have h12 : 12 ≤ k := by
      have hpow : 2 ^ 12 < 2 ^ k := (not_le.mp hmin).trans_le hle
      exact ((Nat.pow_lt_pow_iff_right (by decide)).mp hpow).le
    rw [hchosen]
    refine ⟨⟨.inl ⟨k, h12, h31, rfl⟩, hle⟩, fun capacity hc =>
      le_of_mem_ladder hdouble le_rfl ?_ hc.1 hc.2⟩
    intro i _ _ hi hi'
    rw [parts_eq_one hm] at hi'
    omega
  · have hchosen : adjustCapacity mode size = subdividedCapacity mode size := by
      rw [adjustCapacity.eq_def, if_neg hmin, if_neg hge]
      cases mode with
      | fast => exact absurd (.inl rfl) hm
      | fastDivMod => exact absurd (.inr rfl) hm
      | resizeOnlyEmpty => exact absurd rfl hr
      | _ => rfl
    rw [hchosen]
    exact subdividedCapacity_isLeast hm hr (not_le.mp hmin) hlt

/-- `ResizeOnlyEmpty` has no ladder, but it gives enough slots, too. -/
theorem le_adjustCapacity (mode : Mode) (hmax : size ≤ maxSize) :
    size ≤ adjustCapacity mode size := by
  by_cases hr : mode = .resizeOnlyEmpty
  · by_cases hmin : size ≤ minSize
    · rwa [adjustCapacity_of_le hmin]
    by_cases hge : maxSize ≤ size
    · rwa [adjustCapacity_of_ge hge]
    rw [hr, adjustCapacity.eq_def, if_neg hmin, if_neg hge]
    rcases reservedCapacity_cases size with heq | ⟨-, hle, -⟩
    · rwa [heq]
    · exact hle
  · exact (adjustCapacity_isLeast hr hmax).1.2

theorem adjustCapacity_monotone (hr : mode ≠ .resizeOnlyEmpty) :
    Monotone (adjustCapacity mode) := by
  intro size size' hle
  by_cases hmax : maxSize ≤ size'
  · rw [adjustCapacity_of_ge hmax]
    exact (adjustCapacity_isCapacity mode size).le_max
  · have hlt := not_le.mp hmax
    have hnext := (adjustCapacity_isLeast hr hlt.le).1
    exact (adjustCapacity_isLeast hr (hle.trans hlt.le)).2 ⟨hnext.1, hle.trans hnext.2⟩

theorem adjustCapacity_idempotent (hr : mode ≠ .resizeOnlyEmpty) (size : ℕ) :
    adjustCapacity mode (adjustCapacity mode size) = adjustCapacity mode size := by
  have hmax := (adjustCapacity_isCapacity mode size).le_max
  by_cases hge : maxSize ≤ size
  · rw [adjustCapacity_of_ge hge, adjustCapacity_of_ge le_rfl]
  · have hmem := (adjustCapacity_isLeast hr (not_le.mp hge).le).1.1
    exact le_antisymm ((adjustCapacity_isLeast hr hmax).2 ⟨hmem, le_rfl⟩)
      (le_adjustCapacity mode hmax)

end Least

theorem growthLimit_lt {capacity capacity' : ℕ} {factor : ℚ} (h : IsCapacity capacity)
    (h' : IsCapacity capacity') (hmin : LoadFactor.min ≤ factor) (hmax : factor ≤ LoadFactor.max)
    (hlt : capacity < capacity') : growthLimit capacity factor < growthLimit capacity' factor := by
  have hbelow : capacity < maxSize := hlt.trans_le h'.le_max
  by_cases hge : capacity' < maxSize
  · have hpages : capacity + pageSize ≤ capacity' := by
      obtain ⟨pages, hpages⟩ := h.page
      obtain ⟨pages', hpages'⟩ := h'.page
      rw [hpages, hpages'] at hlt ⊢
      exact Nat.mul_le_mul_left pageSize (Nat.lt_of_mul_lt_mul_left hlt)
    have hfactor : 0 ≤ factor := le_trans (by norm_num [LoadFactor.min]) hmin
    have hstep : (capacity : ℚ) * factor + 1 ≤ capacity' * factor := by
      have hcast : ((capacity + pageSize : ℕ) : ℚ) ≤ capacity' := by exact_mod_cast hpages
      have hmul := mul_le_mul_of_nonneg_right hcast hfactor
      norm_num [LoadFactor.min] at hmin
      norm_num [pageSize] at hmul
      linarith
    have hpos : 0 ≤ (capacity : ℚ) * factor := by positivity
    rw [growthLimit, growthLimit, if_pos hbelow, if_pos hge, ← Nat.succ_le_iff]
    refine Nat.le_floor ?_
    rw [Nat.cast_succ]
    exact (add_le_add_left (Nat.floor_le hpos) 1).trans hstep
  · have hold := growthLimit_add_le h hbelow hmax
    rw [growthLimit.eq_def capacity', if_neg hge]
    omega

namespace Core

variable {K V : Type} {c : Template K} {s t : Core K V}

theorem Inserted.grows (h : s.Inv c) {i : ℕ} {key : K} {value : V}
    (ht : Inserted c s i key value t) (hlt : s.capacity < maxSize)
    (hlimit : s.count + 1 = s.countGrowthLimit) :
    s.capacity < t.capacity ∧ t.count < t.countGrowthLimit := by
  have hcap := ht.capacity
  rw [if_pos hlimit] at hcap
  have hgrow : s.capacity < t.capacity := by
    rw [hcap]
    exact lt_max_of_lt_right (le_adjustCapacity c.mode hlt)
  refine ⟨hgrow, ?_⟩
  rw [ht.count, hlimit, h.limit_eq, ht.limit_eq, ht.factor]
  exact growthLimit_lt h.geometry.isCapacity ht.geometry.isCapacity h.factor_min h.factor_max hgrow

variable [DecidableEq K]

/-- The capacity chosen is the least one of the mode's ladder, and an automatic
growth makes room. -/
theorem capacity_selection (hr : c.mode ≠ .resizeOnlyEmpty) :
    (∀ size ≤ maxSize, IsLeast {capacity | capacity ∈ ladder c.mode ∧ size ≤ capacity}
      (adjustCapacity c.mode size)) ∧
    (∀ size, maxSize ≤ size → adjustCapacity c.mode size = maxSize) ∧
    (∀ size, pageSize ∣ adjustCapacity c.mode size ∧ 4096 ≤ adjustCapacity c.mode size ∧
      adjustCapacity c.mode size ≤ 2 ^ 31) ∧
    Monotone (adjustCapacity c.mode) ∧
    (∀ size, adjustCapacity c.mode (adjustCapacity c.mode size) = adjustCapacity c.mode size) ∧
    ∀ s : Core K V, Reachable c s → s.capacity < maxSize →
      s.capacity < adjustCapacity c.mode (s.capacity + 1) ∧
      ∀ fuel bUnique bUpdate key value index t,
        s.add c fuel bUnique bUpdate key value = .ok ((true, index), t) →
        s.count + 1 = s.countGrowthLimit →
        s.capacity < t.capacity ∧ t.count < t.countGrowthLimit := by
  refine ⟨fun size => adjustCapacity_isLeast hr, fun size => adjustCapacity_of_ge, ?_,
    adjustCapacity_monotone hr, adjustCapacity_idempotent hr, ?_⟩
  · intro size
    have hcap := adjustCapacity_isCapacity c.mode size
    exact ⟨hcap.page, hcap.min_le, hcap.le_max⟩
  · intro s hs hlt
    refine ⟨le_adjustCapacity c.mode hlt, ?_⟩
    intro fuel bUnique bUpdate key value index t hadd hlimit
    have hadded : Added c s bUnique bUpdate key value ((true, index), t) :=
      hs.inv.add_ensures.value hadd
    cases hadded with
    | inserted hslot ht => exact ht.grows hs.inv hlt hlimit

theorem capacity_selection_constantHash :
    IsLeast {capacity | capacity ∈ ladder .saveMemoryMax ∧ 70000000 ≤ capacity}
      (adjustCapacity .saveMemoryMax 70000000) :=
  (capacity_selection (V := ℕ) (c := constantHash .map .saveMemoryMax false) (by decide)).1
    70000000 (by decide)

end Core

end SimdHash
