import SimdHash.Agreement
import SimdHash.Core
import SimdHash.Ladder
import SimdHash.OpenAddressing

/-! The windows a probe looks at, what the masks say about the slots of a
window, and the rule for the probe loop. -/

namespace SimdHash

open BitMask OpenAddressing TagVector

namespace TagArray

variable {ρ : Type}

/-- Every tag is a live one, `EMPTY` or `TOMBSTONE`; every sentinel is `FORBIDDEN`. -/
structure Valid (tags : TagArray) : Prop where
  tag : ∀ i < tags.size, tags.cell i < 0x80 ∨ tags.cell i = empty ∨ tags.cell i = tombstone
  sentinel : ∀ i, tags.size ≤ i → i < tags.size + TagVector.size → tags.cell i = forbidden

/-- What the slots of the table hold, given the record that belongs to each slot. -/
def slots (tags : TagArray) (record : ℕ → ρ) (i : ℕ) : Slot ρ :=
  if i < tags.size ∧ tags.cell i < 0x80 then .live (record i)
  else if i < tags.size ∧ tags.cell i = empty then .empty
  else .tombstone

/-- The slots of a window, which is clipped at the end of the table. -/
def window (tags : TagArray) (base : ℕ) : Set ℕ :=
  {i | base ≤ i ∧ i < base + TagVector.size ∧ i < tags.size}

section Slots

variable {tags : TagArray} {record : ℕ → ρ} {i : ℕ}

theorem slots_eq_live {r : ρ} :
    tags.slots record i = .live r ↔ i < tags.size ∧ tags.cell i < 0x80 ∧ record i = r := by
  simp only [slots]
  split_ifs with h1 h2 <;> grind

theorem slots_eq_empty : tags.slots record i = .empty ↔ i < tags.size ∧ tags.cell i = empty := by
  simp only [slots]
  split_ifs with h1 h2
  · refine iff_of_false (by simp) ?_
    intro hslot
    obtain ⟨-, he⟩ := hslot
    rw [he] at h1
    exact absurd h1.2 (by decide)
  · simpa using h2
  · simpa using h2

theorem slots_not_live : (∀ r, tags.slots record i ≠ .live r) ↔
    (i < tags.size → ¬ tags.cell i < 0x80) := by
  simp only [ne_eq, slots_eq_live]
  constructor
  · intro h hi hlive
    exact h _ ⟨hi, hlive, rfl⟩
  · intro h r hr
    obtain ⟨hi, hlive, -⟩ := hr
    exact h hi hlive

theorem slots_map {τ : Type} (f : ρ → τ) :
    (tags.slots record i).map f = tags.slots (fun j => f (record j)) i := by
  simp only [slots]
  split_ifs <;> rfl

theorem mem_window {base o : ℕ} (h : o < TagVector.size) (ho : base + o < tags.size) :
    base + o ∈ tags.window base := ⟨by omega, by omega, ho⟩

end Slots

section Masks

variable {tags : TagArray} {base : ℕ}

/-- What a load gives: a window and, past the end of the table, sentinels. -/
def source (tags : TagArray) (base : ℕ) : List UInt8 :=
  (List.range TagVector.size).map fun o => tags.cell (base + o)

theorem load_of_lt (h : base < tags.size) : tags.load base = .ok (tags.source base) := if_pos h

theorem testBit_mask (test : UInt8 → Bool) (o : ℕ) :
    (movemask ((tags.source base).map test)).testBit o = true ↔
      o < TagVector.size ∧ test (tags.cell (base + o)) = true := by
  rw [testBit_movemask, source, List.map_map, List.getD_eq_getElem?_getD, List.getElem?_map]
  by_cases ho : o < TagVector.size
  · simp [ho]
  · simp [ho]

theorem mask_lt (test : UInt8 → Bool) :
    movemask ((tags.source base).map test) < 2 ^ 16 := by
  have h := movemask_lt ((tags.source base).map test)
  simpa [source, TagVector.size] using h

theorem Valid.lt_size (h : tags.Valid) (hb : base < tags.size) {o : ℕ}
    (ho : o < TagVector.size) (hf : tags.cell (base + o) ≠ forbidden) : base + o < tags.size := by
  by_contra hge
  exact hf (h.sentinel _ (by omega) (by omega))

theorem Valid.testBit_getCmpMask (h : tags.Valid) (hb : base < tags.size) {target : UInt8}
    (ht : target < 0x80) (o : ℕ) : (getCmpMask (tags.source base) target).testBit o = true ↔
      o < TagVector.size ∧ base + o < tags.size ∧ tags.cell (base + o) = target := by
  rw [getCmpMask, testBit_mask, beq_iff_eq]
  refine and_congr_right fun ho => ⟨?_, fun hc => hc.2.symm⟩
  rintro rfl
  refine ⟨h.lt_size hb ho fun hf => ?_, rfl⟩
  rw [hf] at ht
  exact absurd ht (by decide)

theorem Valid.testBit_getEmptyMask (h : tags.Valid) (hb : base < tags.size) (record : ℕ → ρ)
    (o : ℕ) : (getEmptyMask (tags.source base)).testBit o = true ↔
      o < TagVector.size ∧ tags.slots record (base + o) = .empty := by
  rw [getEmptyMask, testBit_mask, beq_iff_eq, slots_eq_empty]
  refine and_congr_right fun ho => ⟨fun he => ⟨h.lt_size hb ho fun hf => ?_, he.symm⟩,
    fun he => he.2.symm⟩
  rw [hf] at he
  exact absurd he (by decide)

theorem Valid.testBit_getEmptyOrTomeStoneMask (h : tags.Valid) (hb : base < tags.size)
    (o : ℕ) : (getEmptyOrTomeStoneMask (tags.source base)).testBit o = true ↔
      o < TagVector.size ∧ base + o < tags.size ∧ ¬ tags.cell (base + o) < 0x80 := by
  rw [getEmptyOrTomeStoneMask, testBit_mask, beq_iff_eq]
  refine and_congr_right fun ho => ⟨fun he => ?_, fun he => ?_⟩
  · have hlt := h.lt_size hb ho fun hf => by
      rw [hf] at he
      exact absurd he (by decide)
    exact ⟨hlt, (empty_eq_forbidden_land _ (h.tag _ hlt)).mp he⟩
  · exact (empty_eq_forbidden_land _ (h.tag _ he.1)).mpr he.2

theorem Valid.getEmptyMask_ne_zero (h : tags.Valid) (hb : base < tags.size) (record : ℕ → ρ) :
    getEmptyMask (tags.source base) ≠ 0 ↔ HasEmpty (tags.slots record) (tags.window base) := by
  rw [ne_zero_iff]
  constructor
  · intro hmask
    obtain ⟨o, ho⟩ := hmask
    obtain ⟨hlt, he⟩ := (h.testBit_getEmptyMask hb record o).mp ho
    exact ⟨base + o, mem_window hlt (slots_eq_empty.mp he).1, he⟩
  · intro hempty
    obtain ⟨i, ⟨hge, hlt, -⟩, he⟩ := hempty
    refine ⟨i - base, (h.testBit_getEmptyMask hb record _).mpr ⟨by omega, ?_⟩⟩
    rwa [Nat.add_sub_cancel' hge]

theorem Valid.getEmptyOrTomeStoneMask_ne_zero (h : tags.Valid) (hb : base < tags.size)
    (record : ℕ → ρ) : getEmptyOrTomeStoneMask (tags.source base) ≠ 0 ↔
      HasFree (tags.slots record) (tags.window base) := by
  rw [ne_zero_iff]
  constructor
  · intro hmask
    obtain ⟨o, ho⟩ := hmask
    obtain ⟨hlt, hsize, hfree⟩ := (h.testBit_getEmptyOrTomeStoneMask hb o).mp ho
    exact ⟨base + o, mem_window hlt hsize, slots_not_live.mpr fun _ => hfree⟩
  · intro hfree
    obtain ⟨i, ⟨hge, hlt, hsize⟩, hfree⟩ := hfree
    refine ⟨i - base, (h.testBit_getEmptyOrTomeStoneMask hb _).mpr ⟨by omega, ?_⟩⟩
    rw [Nat.add_sub_cancel' hge]
    exact ⟨hsize, slots_not_live.mp hfree hsize⟩

end Masks

end TagArray

namespace Core

variable {K V β : Type} {c : Template K} {s : Core K V}

/-- The index arithmetic of a table is set up for its capacity. -/
structure Geometry (c : Template K) (s : Core K V) : Prop where
  isCapacity : IsCapacity s.capacity
  powerOfTwo : c.mode.isPowerOfTwo → ∃ k, s.capacity = 2 ^ k
  mask : c.mode = .fast → s.capacityMask = s.capacity - 1
  multiplier : c.mode ≠ .fast → s.capacityMultiplier = SimdHash.capacityMultiplier s.capacity

theorem Geometry.capacity_pos (h : s.Geometry c) : 0 < s.capacity :=
  (show 0 < minSize by decide).trans_le h.isCapacity.min_le

theorem umulh_lt {capacity : ℕ} (hpos : 0 < capacity) (t : ℕ) :
    umulh (SimdHash.capacityMultiplier capacity * t % 2 ^ 64) capacity < capacity :=
  Reciprocal.reduce_lt hpos 64 t

theorem umulh_eq_mod {capacity t : ℕ} (hpos : 0 < capacity) (hmax : capacity ≤ maxSize)
    (ht : t < 2 ^ 32) :
    umulh (SimdHash.capacityMultiplier capacity * t % 2 ^ 64) capacity = t % capacity := by
  refine Reciprocal.reduce_eq_mod (w := 64) hpos ?_
  have hmax' : capacity ≤ 2 ^ 31 := hmax
  calc (t + capacity) * capacity ≤ (2 ^ 32 + 2 ^ 31) * 2 ^ 31 := Nat.mul_le_mul (by omega) hmax'
    _ ≤ 2 ^ 64 := by norm_num

theorem Geometry.adjust_lt (h : s.Geometry c) (t : ℕ) : s.adjustTupleIndex c t < s.capacity := by
  have hpos := h.capacity_pos
  by_cases hf : c.mode = .fast
  · rw [adjustTupleIndex, if_pos hf, h.mask hf]
    exact Nat.and_le_right.trans_lt (by omega)
  · rw [adjustTupleIndex, if_neg hf, h.multiplier hf]
    exact umulh_lt hpos t

/-- In the power-of-two modes the reduction is exact for every 64-bit hash. -/
theorem Geometry.adjust_eq_mod_of_powerOfTwo (h : s.Geometry c) (hm : c.mode.isPowerOfTwo)
    (t : ℕ) : s.adjustTupleIndex c t = t % s.capacity := by
  obtain ⟨k, hk⟩ := h.powerOfTwo hm
  by_cases hf : c.mode = .fast
  · rw [adjustTupleIndex, if_pos hf, h.mask hf, hk, Nat.and_two_pow_sub_one_eq_mod]
  · have hle : 2 ^ k ≤ 2 ^ 31 := hk ▸ h.isCapacity.le_max
    have hk31 : k ≤ 31 := (Nat.pow_le_pow_iff_right (by decide)).mp hle
    rw [adjustTupleIndex, if_neg hf, h.multiplier hf, hk]
    exact Reciprocal.reduce_two_pow (by omega) t

theorem Geometry.adjust_eq_mod (h : s.Geometry c) {t : ℕ} (ht : t < 2 ^ 32) :
    s.adjustTupleIndex c t = t % s.capacity := by
  by_cases hf : c.mode = .fast
  · exact h.adjust_eq_mod_of_powerOfTwo (.inl hf) t
  · rw [adjustTupleIndex, if_neg hf, h.multiplier hf]
    exact umulh_eq_mod h.capacity_pos h.isCapacity.le_max ht

def windowBase (c : Template K) (s : Core K V) (hash : UInt64) : ℕ → ℕ
  | 0 => s.adjustTupleIndex c hash.toNat
  | n + 1 => s.adjustTupleIndex c (windowBase c s hash n + TagVector.size * (n + 1) % 256)

def windows (c : Template K) (s : Core K V) (hash : UInt64) (n : ℕ) : Set ℕ :=
  s.tags.window (s.windowBase c hash n)

theorem Geometry.windowBase_lt (h : s.Geometry c) (hash : UInt64) (n : ℕ) :
    s.windowBase c hash n < s.capacity := by
  cases n <;> exact h.adjust_lt _

/-- The probe loop leaves at the first window where `visit` gives a value. -/
theorem probe_ensures {fuel : ℕ} (visit : ℕ → Exec (Option β)) (hash : UInt64) :
    Exec.Ensures (s.probe c fuel visit hash)
      (fun b => ∃ n < fuel, visit (s.windowBase c hash n) = .ok (some b) ∧
        ∀ m < n, visit (s.windowBase c hash m) = .ok none)
      (fun e => (∃ n < fuel, visit (s.windowBase c hash n) = .error e) ∨
        e = .timeout ∧ ∀ n < fuel, visit (s.windowBase c hash n) = .ok none) := by
  refine Exec.ensures_loop
    (I := fun n st => st = (s.windowBase c hash n, TagVector.size * n % 256) ∧
      ∀ m < n, visit (s.windowBase c hash m) = .ok none) ⟨rfl, by simp⟩ ?_ ?_
  · intro n _ hn hr
    obtain ⟨rfl, hbefore⟩ := hr
    cases hv : visit (s.windowBase c hash n) with
    | error e => simpa [hv] using .inl ⟨n, hn, hv⟩
    | ok r =>
      cases r with
      | some b => simpa [hv] using ⟨n, hn, hv, hbefore⟩
      | none =>
        have hjump : (TagVector.size * n % 256 + TagVector.size) % 256 =
            TagVector.size * (n + 1) % 256 := by
          simp only [TagVector.size]
          omega
        simp only [hv, Exec.ok_bind, Exec.ensures_ok, Sum.elim_inl, hjump]
        refine ⟨rfl, fun m hm => ?_⟩
        rcases Nat.lt_succ_iff_lt_or_eq.mp hm with hlt | rfl
        · exact hbefore m hlt
        · exact hv
  · intro st hst
    obtain ⟨-, hall⟩ := hst
    exact .inr ⟨rfl, hall⟩

/-- Two probes that take the same steps give the same if they do so at every
window that they come to. -/
theorem probe_congr {c' : Template K} {s' : Core K V}
    (hadjust : s'.adjustTupleIndex c' = s.adjustTupleIndex c) {visit visit' : ℕ → Exec (Option β)}
    {hash : UInt64}
    (hvisit : ∀ n, (∀ m < n, visit (s.windowBase c hash m) = .ok none) →
      visit' (s.windowBase c hash n) = visit (s.windowBase c hash n)) (fuel : ℕ) :
    s'.probe c' fuel visit' hash = s.probe c fuel visit hash := by
  refine (Exec.agree_loop (I := fun st st' => st = st' ∧
    ∃ n, st' = (s.windowBase c hash n, TagVector.size * n % 256) ∧
      ∀ m < n, visit (s.windowBase c hash m) = .ok none) ⟨?_, 0, rfl, by simp⟩ ?_ fuel).eq
  · rw [hadjust]
    rfl
  · intro st st' hI
    obtain ⟨rfl, n, rfl, hbefore⟩ := hI
    simp only [hvisit n hbefore, hadjust]
    cases hv : visit (s.windowBase c hash n) with
    | error e => rfl
    | ok r =>
      cases r with
      | some b => exact .inr rfl
      | none =>
        have hjump : (TagVector.size * n % 256 + TagVector.size) % 256 =
            TagVector.size * (n + 1) % 256 := by
          simp only [TagVector.size]
          omega
        refine .inl ⟨rfl, n + 1, ?_, fun m hm => ?_⟩
        · rw [hjump]
          rfl
        · rcases Nat.lt_succ_iff_lt_or_eq.mp hm with hlt | rfl
          · exact hbefore m hlt
          · exact hv

end Core

end SimdHash
