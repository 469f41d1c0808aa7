import SimdHash.Calls

/-! The two facts of arithmetic that every probe loop rests on. The
multiply-high reduction is exact for the indices of a probe, and the windows of
a probe cover a power-of-two table from any home slot on. -/

namespace SimdHash

open TagVector

namespace Core

variable {K V : Type} {c : Template K} {s : Core K V}

/-- With the multiplier that `InitCapacity` computes, the reduction is exact
below `2 ^ 32`, so at every stepped index, and stays in the table for every hash. -/
theorem reduction_exact (hmode : c.mode ≠ .fast) (hmin : minSize ≤ s.capacity)
    (hmax : s.capacity ≤ maxSize)
    (hmul : s.capacityMultiplier = SimdHash.capacityMultiplier s.capacity) :
    (∀ t < 2 ^ 32, s.adjustTupleIndex c t = t % s.capacity) ∧
    (∀ tupleIndex < s.capacity, ∀ jump ≤ 240,
      s.adjustTupleIndex c (tupleIndex + jump) = (tupleIndex + jump) % s.capacity) ∧
    ∀ hash : UInt64, s.adjustTupleIndex c hash.toNat < s.capacity := by
  have hpos : 0 < s.capacity := (show 0 < minSize by decide).trans_le hmin
  have hadjust (t : ℕ) : s.adjustTupleIndex c t =
      umulh (SimdHash.capacityMultiplier s.capacity * t % 2 ^ 64) s.capacity := by
    rw [adjustTupleIndex, if_neg hmode, hmul]
  have hexact (t : ℕ) (ht : t < 2 ^ 32) : s.adjustTupleIndex c t = t % s.capacity := by
    rw [hadjust]
    exact umulh_eq_mod hpos hmax ht
  refine ⟨hexact, ?_, ?_⟩
  · intro tupleIndex hindex jump hjump
    have hmax' : s.capacity ≤ 2 ^ 31 := hmax
    exact hexact _ (by omega)
  · intro hash
    rw [hadjust]
    exact umulh_lt hpos hash.toNat

theorem reduction_exact_six_pages : ∃ s : Core ℕ ℕ, s.capacity = 24576 ∧
    s.adjustTupleIndex (constantHash .map .saveMemoryOpt false) (24575 + 240) = 239 := by
  set s : Core ℕ ℕ :=
    { unallocated zeroedMemory with
      capacity := 24576
      capacityMultiplier := SimdHash.capacityMultiplier 24576 }
  have hexact := reduction_exact (c := constantHash .map .saveMemoryOpt false) (s := s)
    (by decide) (by decide) (by decide) rfl
  have hcap : s.capacity = 24576 := rfl
  have hlast := hexact.2.1 24575 (by decide) 240 le_rfl
  rw [hcap] at hlast
  exact ⟨s, hcap, hlast⟩

section Steps

/-- One step of a probe loop, on `tupleIndex` and `jump`. -/
def probeStep (c : Template K) (s : Core K V) (state : ℕ × ℕ) : ℕ × ℕ :=
  let jump := (state.2 + TagVector.size) % 256
  (s.adjustTupleIndex c (state.1 + jump), jump)

theorem probeStep_iterate (hash : UInt64) (n : ℕ) :
    (probeStep c s)^[n] (s.adjustTupleIndex c hash.toNat, 0) =
      (s.windowBase c hash n, TagVector.size * n % 256) := by
  induction n with
  | zero => rfl
  | succ n ih =>
    have hjump : (TagVector.size * n % 256 + TagVector.size) % 256 =
        TagVector.size * (n + 1) % 256 := by
      simp only [TagVector.size]
      omega
    rw [Function.iterate_succ_apply', ih, probeStep, hjump, windowBase]

theorem Geometry.exists_hash (h : s.Geometry c) {home : ℕ} (hhome : home < s.capacity) :
    ∃ hash : UInt64, s.adjustTupleIndex c hash.toNat = home := by
  have hmax : s.capacity ≤ 2 ^ 31 := h.isCapacity.le_max
  refine ⟨UInt64.ofNat home, ?_⟩
  rw [UInt64.toNat_ofNat', Nat.mod_eq_of_lt (by omega), h.adjust_eq_mod (by omega), Nat.mod_eq_of_lt hhome]

/-- From every home slot of a table of `2 ^ k` slots the first `2 ^ k / 8`
windows start at exactly the slots that are a multiple of sixteen away from it,
so they show all slots but the first few. The loop of every probe takes these steps. -/
theorem probe_covers (h : s.Geometry c) (hsize : s.tags.size = s.capacity) {k home : ℕ}
    (hk : s.capacity = 2 ^ k) (hhome : home < 2 ^ k) :
    {base | ∃ n < 2 ^ k / 8, base = ((probeStep c s)^[n] (home, 0)).1} =
      {base | ∃ j, base = (home + 16 * j) % 2 ^ k} ∧
    (∀ i, (∃ n < 2 ^ k / 8, i ∈ s.tags.window ((probeStep c s)^[n] (home, 0)).1) ↔
      home % 16 ≤ i ∧ i < 2 ^ k) ∧
    ∀ hash : UInt64, s.adjustTupleIndex c hash.toNat = home → ∀ n,
      s.windowBase c hash n = ((probeStep c s)^[n] (home, 0)).1 := by
  have hco := h.coprime_of_two_pow hk
  have hloop (hash : UInt64) (hhash : s.adjustTupleIndex c hash.toNat = home) (n : ℕ) :
      s.windowBase c hash n = ((probeStep c s)^[n] (home, 0)).1 := by
    rw [← hhash, probeStep_iterate]
  rw [← hk] at hhome ⊢
  obtain ⟨hash, hhash⟩ := h.exists_hash hhome
  refine ⟨Set.ext fun base => ⟨?_, ?_⟩, fun i => ⟨?_, ?_⟩, hloop⟩
  · intro hbase
    obtain ⟨n, -, rfl⟩ := hbase
    refine ⟨WrappedTriangle.drift n, ?_⟩
    rw [← hloop hash hhash, h.windowBase_eq, hhash]
  · intro hbase
    obtain ⟨j, rfl⟩ := hbase
    obtain ⟨n, hn, hwindow⟩ := h.exists_windowBase hco hash j
    exact ⟨n, hn, by rw [← hloop hash hhash, hwindow, hhash]⟩
  · intro hseen
    obtain ⟨n, -, hmem⟩ := hseen
    rw [← hloop hash hhash] at hmem
    have hlow := h.offset_le hmem
    rw [hhash] at hlow
    exact ⟨hlow, hsize ▸ hmem.2.2⟩
  · intro hi
    obtain ⟨hlow, hlt⟩ := hi
    rw [← hhash] at hlow
    obtain ⟨n, hn, hmem⟩ := h.exists_window hsize hco hash hlow hlt
    exact ⟨n, hn, by rwa [← hloop hash hhash]⟩

theorem probe_covers_new : ∃ s : Core ℕ ℕ, Constructed (constantHash .map .fast false) s ∧
    ∀ i, (∃ n < 2 ^ 12 / 8, i ∈ s.tags.window
      ((probeStep (constantHash .map .fast false) s)^[n] (5, 0)).1) ↔ 5 ≤ i ∧ i < 2 ^ 12 := by
  obtain ⟨s, hs⟩ := exists_constructed (constantHash .map .fast false) zeroedMemory
  obtain ⟨hinv, -, -, hcap, -⟩ := hs.start
  exact ⟨s, hs, (probe_covers (k := 12) hinv.geometry hinv.size_eq hcap (by decide)).2.1⟩

end Steps

end Core

end SimdHash
