import SimdHash.Windows
import SimdHash.WrappedTriangle

/-! Which slots a probe comes to. The step is counted in eight bits, so it
wraps after sixteen windows and the windows drift; they cover the table from
the home slot's offset in its group of sixteen on when the capacity in pages
is prime to 15. -/

namespace SimdHash

open OpenAddressing WrappedTriangle

namespace Core

variable {K V : Type} {c : Template K} {s : Core K V}

theorem sixteen_dvd {capacity : ℕ} (h : IsCapacity capacity) : 16 ∣ capacity :=
  (show 16 ∣ pageSize by decide).trans h.page

theorem Geometry.windowBase_eq (h : s.Geometry c) (hash : UInt64) (n : ℕ) :
    s.windowBase c hash n =
      (s.adjustTupleIndex c hash.toNat + 16 * drift n) % s.capacity := by
  have hmax : s.capacity ≤ 2 ^ 31 := h.isCapacity.le_max
  induction n with
  | zero =>
    rw [drift, mul_zero, add_zero, Nat.mod_eq_of_lt (h.adjust_lt _)]
    rfl
  | succ n ih =>
    have hlt := h.windowBase_lt hash n
    have hstep : TagVector.size * (n + 1) % 256 = 16 * ((n + 1) % 16) := by
      simp only [TagVector.size]
      omega
    rw [windowBase, h.adjust_eq_mod (by omega), ih, Nat.mod_add_mod, hstep, drift]
    congr 1
    ring

theorem Geometry.windowBase_mod (h : s.Geometry c) (hash : UInt64) (n : ℕ) :
    s.windowBase c hash n % 16 = s.adjustTupleIndex c hash.toNat % 16 := by
  rw [h.windowBase_eq, Nat.mod_mod_of_dvd _ (sixteen_dvd h.isCapacity), Nat.add_mul_mod_self_left]

theorem Geometry.offset_le (h : s.Geometry c) {hash : UInt64} {n i : ℕ}
    (hi : i ∈ s.windows c hash n) : s.adjustTupleIndex c hash.toNat % 16 ≤ i := by
  rw [← h.windowBase_mod hash n]
  exact (Nat.mod_le _ _).trans hi.1

/-- A probe repeats itself, at the latest after as many windows as there are slots. -/
theorem Geometry.windows_periodic (h : s.Geometry c) (hash : UInt64) :
    Function.Periodic (s.windows c hash) s.capacity := by
  intro n
  have hcap : s.capacity = 16 * (s.capacity / 16) :=
    (Nat.mul_div_cancel' (sixteen_dvd h.isCapacity)).symm
  have hdrift : 16 * drift (n + s.capacity) = 16 * drift n + s.capacity * 120 := by
    have hcycle := drift_cycle (s.capacity / 16) n
    rw [← hcap, add_comm s.capacity n] at hcycle
    omega
  have hbase : s.windowBase c hash (n + s.capacity) = s.windowBase c hash n := by
    rw [h.windowBase_eq, h.windowBase_eq, hdrift, ← add_assoc, Nat.add_mul_mod_self_left]
  rw [windows, windows, hbase]

theorem Geometry.exists_windowBase (h : s.Geometry c)
    (hco : Nat.Coprime 15 (s.capacity / pageSize)) (hash : UInt64) (j : ℕ) :
    ∃ n < s.capacity / 8, s.windowBase c hash n =
      (s.adjustTupleIndex c hash.toNat + 16 * j) % s.capacity := by
  obtain ⟨pages, hpages⟩ := h.isCapacity.page
  have hcap : s.capacity = 16 * (8 * (32 * pages)) := by
    rw [hpages, pageSize]
    ring
  have hpos := h.capacity_pos
  have hco' : Nat.Coprime 15 (32 * pages) := by
    rw [hpages, Nat.mul_div_cancel_left _ (by decide)] at hco
    exact Nat.Coprime.mul_right (by decide) hco
  obtain ⟨m, hm, hmj⟩ := exists_drift (by omega) hco' j
  refine ⟨m, by omega, ?_⟩
  have hcongr : 16 * drift m ≡ 16 * j [MOD s.capacity] := hcap ▸ hmj.mul_left' 16
  calc s.windowBase c hash m
      = (s.adjustTupleIndex c hash.toNat + 16 * drift m) % s.capacity := h.windowBase_eq hash m
    _ = (s.adjustTupleIndex c hash.toNat + 16 * j) % s.capacity := hcongr.add_left _

/-- It comes to every other slot, in at most two rounds of the table. -/
theorem Geometry.exists_window (h : s.Geometry c) (hsize : s.tags.size = s.capacity)
    (hco : Nat.Coprime 15 (s.capacity / pageSize)) (hash : UInt64) {i : ℕ}
    (hlow : s.adjustTupleIndex c hash.toNat % 16 ≤ i) (hi : i < s.capacity) :
    ∃ n < s.capacity / 8, i ∈ s.windows c hash n := by
  set home := s.adjustTupleIndex c hash.toNat with hhome
  have hlt : home < s.capacity := h.adjust_lt _
  have hdvd := sixteen_dvd h.isCapacity
  -- the start of the window at that offset which holds slot `i`
  set base := i - (i - home % 16) % 16 with hbase
  have hmod : base % 16 = home % 16 := by omega
  have hbase_le : base ≤ i ∧ i < base + 16 := by omega
  obtain ⟨j, hj⟩ : ∃ j, home + 16 * j = s.capacity + base := by
    refine ⟨(s.capacity + base - home) / 16, ?_⟩
    omega
  obtain ⟨n, hn, hwindow⟩ := h.exists_windowBase hco hash j
  rw [← hhome, hj, Nat.add_mod_left, Nat.mod_eq_of_lt (by omega)] at hwindow
  refine ⟨n, hn, ?_⟩
  rw [windows, hwindow]
  exact ⟨hbase_le.1, hbase_le.2, hsize ▸ hi⟩

/-- Where the probe starts at the first slot, its windows are aligned, and the
number of the group of sixteen follows the drift. -/
theorem Geometry.group_eq (h : s.Geometry c) {hash : UInt64}
    (hhome : s.adjustTupleIndex c hash.toNat = 0) {d n i : ℕ} (hd : d ∣ s.capacity / 16)
    (hi : i ∈ s.windows c hash n) : i / 16 % d = drift n % d := by
  have hcap : s.capacity = 16 * (s.capacity / 16) :=
    (Nat.mul_div_cancel' (sixteen_dvd h.isCapacity)).symm
  have hbase := h.windowBase_eq hash n
  rw [hhome, zero_add, hcap, Nat.mul_mod_mul_left] at hbase
  obtain ⟨hge, hlt, -⟩ := hi
  have hgroup : i / 16 = drift n % (s.capacity / 16) := by
    simp only [TagVector.size] at hlt
    omega
  rw [hgroup, Nat.mod_mod_of_dvd _ hd]

/-- Enough fuel, and slots, for `count` entries in a table that probes cover
but for the fifteen slots a window start can miss. -/
structure Roomy (capacity fuel count : ℕ) : Prop where
  coprime : Nat.Coprime 15 (capacity / pageSize)
  fuel : capacity ≤ fuel
  slots : count + 15 ≤ capacity

theorem Geometry.hasFree {ρ : Type} {fuel count : ℕ} (h : s.Geometry c)
    (hsize : s.tags.size = s.capacity) (hroom : Roomy s.capacity fuel count) {t : ℕ → Slot ρ}
    (ht : (content (Finset.range s.tags.size) t).card < count) (hash : UInt64) :
    ∃ n < fuel, HasFree t (s.windows c hash n) := by
  have hslots := hroom.slots
  have hcard : (content (Finset.range s.tags.size) t).card +
      (Finset.range (s.adjustTupleIndex c hash.toNat % 16)).card <
        (Finset.range s.tags.size).card := by
    rw [Finset.card_range, Finset.card_range]
    omega
  obtain ⟨i, hi, hhidden, hfree⟩ := exists_free hcard
  have hlow := not_lt.mp (Finset.mem_range.not.mp hhidden)
  obtain ⟨n, hn, hmem⟩ := h.exists_window hsize hroom.coprime hash hlow
    (hsize ▸ Finset.mem_range.mp hi)
  have hfuel := hroom.fuel
  exact ⟨n, by omega, i, hmem, hfree⟩

theorem Geometry.coprime_of_two_pow (h : s.Geometry c) {k : ℕ} (hk : s.capacity = 2 ^ k) :
    Nat.Coprime 15 (s.capacity / pageSize) := by
  have hle : 2 ^ 12 ≤ 2 ^ k := hk ▸ h.isCapacity.min_le
  have h12 : 12 ≤ k := (Nat.pow_le_pow_iff_right (by decide)).mp hle
  rw [hk, show pageSize = 2 ^ 12 from rfl, Nat.pow_div h12 (by decide)]
  exact Nat.Coprime.pow_right _ (by decide)

theorem Geometry.coprime_of_powerOfTwo (h : s.Geometry c) (hm : c.mode.isPowerOfTwo) :
    Nat.Coprime 15 (s.capacity / pageSize) := by
  obtain ⟨k, hk⟩ := h.powerOfTwo hm
  exact h.coprime_of_two_pow hk

end Core

end SimdHash
