import SimdHash.BenchTests

/-! Whole benchmarks: a run over the loads from `startLoad` to `maxLoad` aborts
only where a load does not pass or counts nothing, and in the power-of-two modes
it ends. -/

namespace SimdHash

namespace BenchHash

open SimdHash.Core OpenAddressing

variable {K : Type} {ty : KeyType K} {c : Template K} {s t : Core K K} {p : Phase K} {fuel : ℕ}
  {calm : Prop} {memory : Memory K K} {reserve : ℕ}

section Objects

theorem Tracks.initial (h : s.Inv c) (hfix : c.bFix = false) (hcount : s.count = 0)
    (hclean : s.tags.Clean)
    (hlively : calm → s.maxLoadFactor = 16000 / (16 * 1024) ∧ s.capacity ≤ 2 ^ 29) :
    Tracks c calm s (Phase.initial K) := by
  refine { h with keys := ?_, stale := ?_, lively := ?_ }
  · rw [h.count_eq_zero hcount]
    rfl
  · exact fun key hs => absurd hs (h.not_shadowed hclean hfix key)
  · intro hcalm
    obtain ⟨hfactor, hcapacity⟩ := hlively hcalm
    exact
      { factor := hfactor
        capacity := hcapacity
        peak := h.limit_pos (hcapacity.trans_lt (by decide))
        graves := (graves_of_clean hclean h.valid).le }

theorem accepted_maxLoadFactor : maxLoadFactor.accepted? = some (16000 / (16 * 1024)) := by
  norm_num [maxLoadFactor, FloatValue.accepted?, LoadFactor.min, LoadFactor.max]

theorem create_ensures (hset : Setting c fuel calm) (hreserve : calm → reserve ≤ 2 ^ 29) :
    Exec.Ensures (create c fuel memory reserve) (fun s => Tracks c calm s (Phase.initial K))
      (fun _ => False) := by
  refine (construct_ensures memory).bind fun s hs => ?_
  obtain ⟨hinv, hcount, hclean, hcap, -⟩ := hs
  have hfactor : (s.setMaxLoadFactor maxLoadFactor).maxLoadFactor = 16000 / (16 * 1024) := by
    rw [setMaxLoadFactor, accepted_maxLoadFactor]
    rfl
  have hfresh := hinv.setMaxLoadFactor maxLoadFactor
  by_cases hpos : reserve > 0
  · rw [if_pos hpos]
    refine (hfresh.resize_ensures (reserve * 9 / 10)).imp ?_ fun e he => he.1 hcount
    intro t ht
    refine .initial ht.toInv hset.fix (ht.count.trans hcount) (ht.clean hclean) fun hcalm => ?_
    refine ⟨ht.factor.trans hfactor, ?_⟩
    rw [ht.capacity]
    refine max_le ?_ (adjustCapacity_le_half (hset.powerOfTwo hcalm) ?_)
    · exact hcap.le.trans (by decide)
    · have := hreserve hcalm
      omega
  · rw [if_neg hpos]
    refine .initial hfresh hset.fix hcount hclean fun _ => ⟨hfactor, ?_⟩
    exact hcap.le.trans (by decide)

end Objects

variable [DecidableEq K] {dataSet : List UInt64} {tt : TestType} {bReuse : Bool}

/-- The object that a load is started with: the one of the load before it, with
that load's words, and with no removals in it when it is used again in peace. -/
inductive Held (ty : KeyType K) (c : Template K) (calm : Prop) (dataSet : List UInt64)
    (bReuse : Bool) : ℕ → Option (Core K K) → Prop
  | none {load : ℕ} : Held ty c calm dataSet bReuse load none
  | some {load m : ℕ} {s : Core K K} {p : Phase K} (hm : m ≤ load) (h : Tracks c calm s p)
      (hkeys : p.keys = (loaded ty dataSet m).toFinset)
      (hgraves : bReuse = true → calm → p.graves ≤ 0) :
      Held ty c calm dataSet bReuse load (some s)

theorem Held.mono {load load' : ℕ} {object : Option (Core K K)}
    (h : Held ty c calm dataSet bReuse load object) (hle : load ≤ load') :
    Held ty c calm dataSet bReuse load' object := by
  cases h with
  | none => exact .none
  | some hm h hkeys hgraves => exact .some (hm.trans hle) h hkeys hgraves

/-- What a load finds in the object after `Init`. -/
def Ready (ty : KeyType K) (c : Template K) (calm : Prop) (dataSet : List UInt64) (bReuse : Bool)
    (tt : TestType) (load : ℕ) (s : Core K K) : Prop :=
  ∃ p m, m ≤ load ∧ Tracks c calm s p ∧ p.keys = (loaded ty dataSet m).toFinset ∧
    (tt = .test1 ∨ bReuse = false → m = 0) ∧ (calm → p.graves ≤ 0)

theorem Ready.fresh {load : ℕ} (h : Tracks c calm s (Phase.initial K)) :
    Ready ty c calm dataSet bReuse tt load s := by
  refine ⟨_, 0, Nat.zero_le load, h, ?_, fun _ => rfl, fun _ => le_rfl⟩
  simp [Phase.initial, loaded_eq]

theorem init_ensures (hset : Setting c fuel calm) {load : ℕ} {object : Option (Core K K)}
    (hreserve : calm → reserve ≤ 2 ^ 29) (h : Held ty c calm dataSet bReuse load object) :
    Exec.Ensures (init c fuel memory reserve bReuse tt object)
      (Ready ty c calm dataSet bReuse tt load) (fun _ => False) := by
  have hcreate : Exec.Ensures (create c fuel memory reserve)
      (Ready ty c calm dataSet bReuse tt load) (fun _ => False) :=
    (create_ensures hset hreserve).mono fun _ => Ready.fresh
  cases h with
  | none => exact hcreate
  | @some m s p hm h hkeys hgraves =>
    cases bReuse with
    | false => exact hcreate
    | true =>
      by_cases htt : tt = .test1
      · rw [init, if_pos rfl, if_pos htt]
        refine (h.toInv.clear_ensures 0).imp ?_ fun e he => he.2 rfl
        intro t ht
        obtain ⟨hinv, hcount, hclean, hfactor, hcap⟩ := ht
        refine Ready.fresh (.initial hinv hset.fix hcount hclean fun hcalm => ?_)
        have hl := h.lively hcalm
        exact ⟨hfactor.trans hl.factor, (hcap rfl).le.trans hl.capacity⟩
      · rw [init, if_pos rfl, if_neg htt]
        exact ⟨p, m, hm, h, hkeys, fun hfresh => by simp [htt] at hfresh, hgraves rfl⟩

section Runs

variable {sampler : Sampler} {width : ℕ} (hset : Setting c fuel calm) (hw : IsWidth width)
  (hdistinct : (dataSet.map ty.cast).Nodup) (hlen : dataSet.length < 2 ^ 32)

include hset hw hdistinct hlen

/-- One load, with the object that it finds and the one it leaves. -/
theorem benchLoad_ensures {load : ℕ} {object : Option (Core K K)} (bUnique : Bool)
    (hreserve : calm → reserve ≤ 2 ^ 29) (hreuse : calm → bReuse = true → tt ≠ .test2)
    (h : Held ty c calm dataSet bReuse load object) :
    Exec.Ensures (benchLoad ty c fuel memory width sampler reserve bReuse bUnique dataSet load tt
        object)
      (fun r => r.1 = opCount c.type load tt ∧
        (LoadPasses sampler tt dataSet load ∧ LoadCounts c.type tt load) ∧
        Held ty c calm dataSet bReuse load (some r.2) ∧
        ∀ key, HasKey c r.2 key ↔ key ∈ loaded ty dataSet load)
      (Halted calm (LoadPasses sampler tt dataSet load) (LoadCounts c.type tt load)) := by
  refine ((init_ensures hset hreserve h).imp (fun s hs => hs) fun _ => False.elim).bind fun s hs => ?_
  obtain ⟨p, m, hm, hs, hkeys, hstart, hgraves⟩ := hs
  refine (hs.benchObject_ensures hset hw hdistinct hlen hm hstart hkeys hgraves bUnique).mono
    fun r hr => ?_
  obtain ⟨hops, hpass, q, hq, hqkeys, hqgraves⟩ := hr
  refine ⟨hops, hpass, .some le_rfl hq hqkeys fun hb hcalm => ?_, fun key => ?_⟩
  · rw [hqgraves (hreuse hcalm hb)]
    exact hgraves hcalm
  · rw [← hq.mem_iff, hqkeys, List.mem_toFinset]

variable {BenchFlags : UInt64} {startLoad maxLoad stepLoad : ℕ}

/-- The loads that the benchmark goes through pass. -/
def AllPass (sampler : Sampler) (tt : TestType) (dataSet : List UInt64)
    (startLoad maxLoad stepLoad : ℕ) : Prop :=
  ∀ i, startLoad + i * stepLoad ≤ maxLoad → LoadPasses sampler tt dataSet (startLoad + i * stepLoad)

/-- No load that the benchmark goes through divides by zero. -/
def AllCounts (type : ContainerType) (tt : TestType) (startLoad maxLoad stepLoad : ℕ) : Prop :=
  ∀ i, startLoad + i * stepLoad ≤ maxLoad → LoadCounts type tt (startLoad + i * stepLoad)

/-- What the benchmark reports after `n` loads, and the object that is left. -/
structure Report (ty : KeyType K) (c : Template K) (sampler : Sampler) (tt : TestType)
    (dataSet : List UInt64) (startLoad maxLoad stepLoad n : ℕ) (counters : List ℕ)
    (object : Option (Core K K)) : Prop where
  loads : ∀ i < n, startLoad + i * stepLoad ≤ maxLoad
  passes : ∀ i < n, LoadPasses sampler tt dataSet (startLoad + i * stepLoad)
  counts : ∀ i < n, LoadCounts c.type tt (startLoad + i * stepLoad)
  counters : counters =
    (List.range n).map fun i => opCount c.type (startLoad + i * stepLoad) tt
  keys : ∀ i s, n = i + 1 → object = some s →
    ∀ key, HasKey c s key ↔ key ∈ loaded ty dataSet (startLoad + i * stepLoad)

omit hset hw hdistinct hlen [DecidableEq K] in
theorem Report.snoc {tt : TestType} {n load opCounter : ℕ} {counters : List ℕ}
    {object : Option (Core K K)}
    (h : Report ty c sampler tt dataSet startLoad maxLoad stepLoad n counters object)
    (hload : load = startLoad + n * stepLoad) (hle : load ≤ maxLoad)
    (hpass : LoadPasses sampler tt dataSet load) (hcounts : LoadCounts c.type tt load)
    (hops : opCounter = opCount c.type load tt)
    (hkeys : ∀ key, HasKey c s key ↔ key ∈ loaded ty dataSet load) :
    Report ty c sampler tt dataSet startLoad maxLoad stepLoad (n + 1) (counters ++ [opCounter])
      (some s) := by
  subst hload
  refine
    { loads := fun i hi => ?_
      passes := fun i hi => ?_
      counts := fun i hi => ?_
      counters := ?_
      keys := fun i s' hi hs => ?_ }
  · rcases Nat.lt_succ_iff_lt_or_eq.mp hi with hlt | rfl
    · exact h.loads i hlt
    · exact hle
  · rcases Nat.lt_succ_iff_lt_or_eq.mp hi with hlt | rfl
    · exact h.passes i hlt
    · exact hpass
  · rcases Nat.lt_succ_iff_lt_or_eq.mp hi with hlt | rfl
    · exact h.counts i hlt
    · exact hcounts
  · rw [h.counters, hops, List.range_succ, List.map_append]
    rfl
  · obtain rfl : n = i := Nat.succ.inj hi
    obtain rfl : s = s' := Option.some.inj hs
    exact hkeys

omit hset hw hdistinct hlen [DecidableEq K] in
theorem Report.all {tt : TestType} {n : ℕ} {counters : List ℕ} {object : Option (Core K K)}
    (h : Report ty c sampler tt dataSet startLoad maxLoad stepLoad n counters object)
    (hend : maxLoad < startLoad + n * stepLoad) :
    AllPass sampler tt dataSet startLoad maxLoad stepLoad ∧
      AllCounts c.type tt startLoad maxLoad stepLoad := by
  have hlt {i : ℕ} (hi : startLoad + i * stepLoad ≤ maxLoad) : i < n := by
    by_contra hge
    have hmul := Nat.mul_le_mul_right stepLoad (not_lt.mp hge)
    omega
  exact ⟨fun i hi => h.passes i (hlt hi), fun i hi => h.counts i (hlt hi)⟩

theorem bench_ensures (hmax : maxLoad + stepLoad < 2 ^ 64) (hbound : calm → maxLoad ≤ 2 ^ 29)
    (hstep : calm → 0 < stepLoad)
    (hreuse : calm → BenchHash.bReuse BenchFlags = true → testType BenchFlags ≠ .test2) :
    Exec.Ensures (bench ty c fuel memory width sampler BenchFlags dataSet startLoad maxLoad stepLoad)
      (fun r => ∃ n, maxLoad < startLoad + n * stepLoad ∧ Report ty c sampler (testType BenchFlags)
        dataSet startLoad maxLoad stepLoad n r.1 r.2)
      (Halted calm (AllPass sampler (testType BenchFlags) dataSet startLoad maxLoad stepLoad)
        (AllCounts c.type (testType BenchFlags) startLoad maxLoad stepLoad)) := by
  refine Exec.ensures_loop (I := fun n st => st.1 = startLoad + n * stepLoad ∧
    Held ty c calm dataSet (BenchHash.bReuse BenchFlags) st.1 st.2.2 ∧
    Report ty c sampler (testType BenchFlags) dataSet startLoad maxLoad stepLoad n st.2.1 st.2.2)
    ?_ ?_ ?_
  · refine ⟨by simp, .none, ?_⟩
    exact
      { loads := by simp
        passes := by simp
        counts := by simp
        counters := rfl
        keys := fun i s hi => by omega }
  · intro n st hn hI
    obtain ⟨load, counters, object⟩ := st
    obtain ⟨hload, hheld, hreport⟩ := hI
    simp only at hload hheld hreport
    by_cases hle : load ≤ maxLoad
    · have hreserve : calm → BenchHash.reserve BenchFlags startLoad maxLoad % 2 ^ 32 ≤ 2 ^ 29 := by
        intro hcalm
        have := hbound hcalm
        refine (Nat.mod_le _ _).trans ?_
        rw [BenchHash.reserve]
        split_ifs <;> omega
      have hround : Exec.Ensures (benchLoad ty c fuel memory width sampler _
          (BenchHash.bReuse BenchFlags) (bUnique BenchFlags) dataSet load _ object) _ _ :=
        benchLoad_ensures hset hw hdistinct hlen (bUnique BenchFlags) hreserve hreuse hheld
      simp only [if_pos hle]
      refine (hround.imp (fun r hr => hr) fun e he => ?_).bind fun r hr => ?_
      · have hle' : startLoad + n * stepLoad ≤ maxLoad := hload ▸ hle
        rw [hload] at he
        refine he.imp (fun hstop => ?_) fun hzero => ⟨fun hall => hzero.1 (hall n hle'), hzero.2⟩
        exact hstop.imp_right fun hfail => ⟨fun hall => hfail.1 (hall n hle'), hfail.2⟩
      obtain ⟨opCounter, s⟩ := r
      obtain ⟨hops, ⟨hpass, hcounts⟩, hnext, hkeys⟩ := hr
      have hsucc : (load + stepLoad) % 2 ^ 64 = startLoad + (n + 1) * stepLoad := by
        rw [Nat.mod_eq_of_lt (by omega), hload, Nat.add_assoc, Nat.succ_mul]
      simp only [Exec.ensures_ok, Sum.elim_inl]
      refine ⟨hsucc, hnext.mono (by omega), ?_⟩
      exact hreport.snoc hload hle hpass hcounts hops hkeys
    · simp only [if_neg hle, Exec.ensures_ok, Sum.elim_inr]
      exact ⟨n, by omega, hreport⟩
  · intro st hI
    refine .inl (.inl ⟨rfl, fun hcalm => ?_⟩)
    have hloads := hI.2.2.loads
    have hmany : maxLoad + 1 < fuel := by
      have := hset.fuel
      have := hbound hcalm
      rw [maxSize] at *
      omega
    have hlast := hloads _ hmany
    have hpos := hstep hcalm
    have hgrow : maxLoad + 1 ≤ (maxLoad + 1) * stepLoad := Nat.le_mul_of_pos_right _ hpos
    omega

end Runs

section Benchmarks

variable {sampler : Sampler} {width : ℕ} {BenchFlags : UInt64} {startLoad maxLoad stepLoad : ℕ}

/-- In the power-of-two modes a benchmark ends, and without a failed assertion or
a division by zero exactly if its loads pass and count something, unless
containers with removed keys are used again. -/
theorem benchmark_returns_iff (hfix : c.bFix = false) (hm : c.mode.isPowerOfTwo)
    (hfuel : maxSize < fuel) (hw : IsWidth width) (hdistinct : (dataSet.map ty.cast).Nodup)
    (hlen : dataSet.length < 2 ^ 32) (hmax : maxLoad ≤ 2 ^ 29) (hstep : 0 < stepLoad)
    (hlast : maxLoad + stepLoad < 2 ^ 64)
    (hreuse : BenchHash.bReuse BenchFlags = true → testType BenchFlags ≠ .test2) :
    bench ty c fuel memory width sampler BenchFlags dataSet startLoad maxLoad stepLoad ≠
        .error .timeout ∧
      ((∃ r, bench ty c fuel memory width sampler BenchFlags dataSet startLoad maxLoad stepLoad =
        .ok r) ↔ AllPass sampler (testType BenchFlags) dataSet startLoad maxLoad stepLoad ∧
          AllCounts c.type (testType BenchFlags) startLoad maxLoad stepLoad) := by
  refine ((bench_ensures (.peaceful hfix hm hfuel) hw hdistinct hlen hlast (fun _ => hmax)
    (fun _ => hstep) fun _ => hreuse).imp (fun r hr => hr) fun e he => he.peaceful).returns_iff ?_
  intro r hr
  obtain ⟨n, hend, hreport⟩ := hr
  exact hreport.all hend

/-- A sample of the last words. -/
def lastWords : Sampler where
  Generator := Unit
  seeded := ()
  sample data n generator := (data.drop (data.length - n), generator)
  sublist data n _ := List.drop_sublist _ _
  length data n _ := by
    rw [List.length_drop]
    omega

def clearedMemory : Memory UInt64 UInt64 where
  tag _ := 0
  entry _ := ⟨0, 0⟩
  index _ := 0

theorem benchmark_returns_iff_test2 : ∃ r,
    bench .uint64 ⟨.set, .fast, false, true, id⟩ (maxSize + 1) clearedMemory 16 lastWords
      0x0000010000000000 ((List.range 202).map UInt64.ofNat) 200 200 1 = .ok r := by
  have htest : testType 0x0000010000000000 = .test2 := by decide
  refine (benchmark_returns_iff rfl (.inl rfl) (Nat.lt_succ_self _) (.inl rfl) (by decide +kernel)
    (by decide +kernel) (by decide) (by decide) (by decide) (by decide)).2.mpr
      ⟨fun i hi => ?_, fun i hi => ?_⟩
  · obtain rfl : i = 0 := by omega
    rw [htest]
    exact ⟨by simp, by decide, fun _ => ⟨201, by decide +kernel, by decide +kernel⟩, by simp⟩
  · obtain rfl : i = 0 := by omega
    rw [htest]
    exact ⟨by decide, fun _ => by decide⟩

end Benchmarks

end BenchHash

end SimdHash
