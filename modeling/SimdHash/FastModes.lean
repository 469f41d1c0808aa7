import SimdHash.LockstepCalls

/-! `Mode::FastDivMod` against `Mode::Fast`: one multiplies where the other
masks, and nothing else about a run differs. -/

namespace SimdHash

open Exec TagVector

theorem umulh_capacityMultiplier_two_pow {k : ℕ} (hk : k ≤ 31) (t : ℕ) :
    umulh (capacityMultiplier (2 ^ k) * t % 2 ^ 64) (2 ^ k) = t &&& (2 ^ k - 1) := by
  have hreduce : umulh (capacityMultiplier (2 ^ k) * t % 2 ^ 64) (2 ^ k) = t % 2 ^ k :=
    Reciprocal.reduce_two_pow (by omega) t
  rw [hreduce, Nat.and_two_pow_sub_one_eq_mod]

namespace Core

variable {K V : Type} {c : Template K} {mode : Mode} {s s' : Core K V} {fuel : ℕ}

theorem Geometry.exists_log (h : s.Geometry c) (hm : c.mode.isPowerOfTwo) :
    ∃ k, 12 ≤ k ∧ k ≤ 31 ∧ s.capacity = 2 ^ k := by
  obtain ⟨k, hk⟩ := h.powerOfTwo hm
  have hmin : 2 ^ 12 ≤ 2 ^ k := hk ▸ h.isCapacity.min_le
  have hmax : 2 ^ k ≤ 2 ^ 31 := hk ▸ h.isCapacity.le_max
  exact ⟨k, (Nat.pow_le_pow_iff_right (by decide)).mp hmin,
    (Nat.pow_le_pow_iff_right (by decide)).mp hmax, hk⟩

theorem alike_unallocated (c : Template K) (mode : Mode) (memory : Memory K V) :
    Alike c mode True (fun _ => True) (unallocated memory) (unallocated memory) where
  tags := ⟨rfl, fun _ _ => rfl, fun _ => rfl⟩
  adjust := by
    funext x
    simp [adjustTupleIndex, unallocated, umulh]
  capacity := rfl
  factor := rfl
  limit := rfl
  count := rfl
  entries_size _ := rfl
  realIndex_size _ := rfl
  refs _ _ _ := rfl
  entries _ _ := ⟨rfl, fun _ => rfl⟩
  whole _ := ⟨rfl, rfl⟩

theorem construct_settled (hmode : c.mode.Interchangeable mode) (memory : Memory K V) :
    Agree (Settled c mode True) (construct c fuel memory)
      (construct (c.withMode mode) fuel memory) := by
  have hunallocated := alike_unallocated c mode memory
  have hleft : Ensures (construct c fuel memory) _ _ := construct_ensures memory
  have hright : Ensures (construct (c.withMode mode) fuel memory) _ _ := construct_ensures memory
  have hstep : Agree (fun s s' => Alike c mode True (s.InUse c) s s') (construct c fuel memory)
      (construct (c.withMode mode) fuel memory) := by
    rw [construct, construct, resize_unallocated rfl rfl rfl, resize_unallocated rfl rfl rfl,
      hunallocated.storage_eq, hmode.adjustCapacity_eq]
    refine (Agree.of_eq rfl).bind fun _ _ _ => ?_
    exact (hunallocated.initCapacity hmode minSize).grown.emptied fun _ _ => trivial
  refine (hstep.ensures hleft hright).mono ?_
  intro s s' hs
  exact ⟨hs.1, hs.2.1.1, hs.2.2.1⟩

variable [DecidableEq K]

/-- Runs of the same calls over the same memory agree in every result and
every array, and the capacities they reach are those where the reductions do. -/
theorem fastDivMod_agrees (c : Template K) (memory : Memory K V) (fuel : ℕ)
    (ops : List (Op K V c.type)) :
    Agree (fun r r' => r'.1 = r.1 ∧ r'.2.capacity = r.2.capacity ∧ r'.2.count = r.2.count ∧
        r'.2.tags = r.2.tags ∧ r'.2.entries = r.2.entries ∧ r'.2.realIndex = r.2.realIndex ∧
        ∃ k, 12 ≤ k ∧ k ≤ 31 ∧ r.2.capacity = 2 ^ k)
      (construct (c.withMode .fast) fuel memory >>= fun s =>
        runOps (c.withMode .fast) fuel s ops)
      (construct (c.withMode .fastDivMod) fuel memory >>= fun s =>
        runOps (c.withMode .fastDivMod) fuel s ops) ∧
    ∀ k t, 12 ≤ k → k ≤ 31 →
      umulh (SimdHash.capacityMultiplier (2 ^ k) * t % 2 ^ 64) (2 ^ k) = t &&& (2 ^ k - 1) := by
  have hmode : (c.withMode .fast).mode.Interchangeable .fastDivMod :=
    .inr ⟨.inl rfl, .inr rfl⟩
  refine ⟨?_, fun k t _ hk => umulh_capacityMultiplier_two_pow hk t⟩
  refine (construct_settled hmode memory).bind fun s s' hs => ?_
  refine (hs.runOps hmode ops).mono fun r r' hr => ?_
  obtain ⟨htrace, hend⟩ := hr
  obtain ⟨hentries, hreal⟩ := hend.whole trivial
  exact ⟨htrace, hend.capacity, hend.count, hend.tags.whole trivial, hentries, hreal,
    hend.left.geometry.exists_log (.inl rfl)⟩

theorem fastDivMod_agrees_constantHash :
    umulh (SimdHash.capacityMultiplier (2 ^ 31) * 0xffffffffffffffff % 2 ^ 64) (2 ^ 31) =
      0xffffffffffffffff &&& (2 ^ 31 - 1) ∧
    ∃ r, (construct (constantHash .map .fastDivMod false) 100 zeroedMemory >>= fun s =>
        runOps (constantHash .map .fastDivMod false) 100 s
          [.add false 1 10, .add false 2 20, .remove 1]) = .ok r ∧
      r.2.count = 1 ∧ r.2.tags.cell 0 = tombstone := by
  have hagree := fastDivMod_agrees (constantHash .map .fast false) zeroedMemory 100
    [.add false 1 10, .add false 2 20, .remove 1]
  have hfast : ((construct (constantHash .map .fast false) 100 zeroedMemory >>= fun s =>
      runOps (constantHash .map .fast false) 100 s
        [.add false 1 10, .add false 2 20, .remove 1]) >>=
      fun r => .ok (r.2.count, r.2.tags.cell 0)) = .ok (1, tombstone) := by
    decide +kernel
  obtain ⟨r, hrun, hr⟩ := Exec.bind_eq_ok.mp hfast
  simp only [Except.ok.injEq, Prod.mk.injEq] at hr
  obtain ⟨r', hrun', -, -, hcount, htags, -⟩ := hagree.1.value hrun
  exact ⟨hagree.2 31 _ (by decide) le_rfl, r', hrun', hcount.trans hr.1, by rw [htags, hr.2]⟩

end Core

end SimdHash
