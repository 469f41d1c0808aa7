import SimdHash.Agreement
import SimdHash.BenchRuns
import SimdHash.RoundTrip

/-! What `main` benchmarks: a data set that `GetDataSet` gives, whose keys are
distinct at either width, over loads that the arguments may choose. -/

namespace SimdHash

namespace Application

open DataSet BenchHash FixedWidth SimdHash.Core

/-- An argument that is there and does not begin with a dash: `atoi` and `atof`
of it, and the product of the latter with a million, cut off. -/
structure Argument where
  atoi : ℤ
  atof : ℚ
  millions : UInt64
  millions_le : atof ≤ 10 → millions ≤ 10000000

structure Loads where
  startLoad : UInt64
  maxLoad : UInt64
  stepLoad : UInt64

/-- The loads for a data set of that size, and `argv[2]` to `argv[4]`. -/
def loads (dataSetSize : UInt64) (arg2 arg3 arg4 : Option Argument) : Loads :=
  let maxLoad := (dataSetSize - UInt64.ofNat testVectorSize) / 1024 / 1024
  let maxLoad :=
    match arg2 with
    | some arg => if 1 ≤ arg.atoi ∧ arg.atoi ≤ maxLoad.toNat then UInt64.ofInt arg.atoi else maxLoad
    | none => maxLoad
  let startLoad :=
    match arg3 with
    | some arg => if arg.atof > 0 ∧ UInt64.ofInt arg.atoi ≤ maxLoad then arg.millions else 1000000
    | none => 1000000
  let stepLoad :=
    match arg4 with
    | some arg => if arg.atof > 0 ∧ arg.atof ≤ 10 then arg.millions else 1000000
    | none => 1000000
  { startLoad, maxLoad := maxLoad * 1000000, stepLoad }

section Keys

variable {dataSetSize : UInt64} {typeSequential : ℕ} {data : List UInt64}

/-- The words of a sequential data set differ in their low halves. -/
theorem sequential_low_injective {j k : ℕ} (hj : j < 2 ^ 29) (hk : k < 2 ^ 29)
    (h : (sequential typeSequential dataSetSize j).toUInt32 =
      (sequential typeSequential dataSetSize k).toUInt32) : j = k := by
  have hlow : (sequential typeSequential dataSetSize j).toNat % 2 ^ 32 =
      (sequential typeSequential dataSetSize k).toNat % 2 ^ 32 := by
    rw [← UInt64.toNat_toUInt32, ← UInt64.toNat_toUInt32, h]
  have hword {n : ℕ} (hn : n < 2 ^ 29) : (UInt64.ofNat n).toNat = n := by
    rw [UInt64.toNat_ofNat']
    omega
  have hj' := hword hj
  have hk' := hword hk
  have hones : (0xFFFFFFFFFFFFFFFF : UInt64).toNat = 2 ^ 64 - 1 := rfl
  simp only [sequential.eq_def] at hlow
  split at hlow
  · simp only [UInt64.toNat_sub, hj', hk', hones] at hlow
    omega
  · simp only [UInt64.toNat_add, hj', hk'] at hlow
    omega
  · simp only [hj', hk'] at hlow
    omega

/-- A data set that `main` benchmarks: sequential, or read from a file that was
generated, and in any order. -/
inductive Benchmarked {J : Type} (judy : Judy1 J) (data : List UInt64) : Prop
  | sequential {fuel typeSequential : ℕ} {shuffle : List UInt64 → List UInt64}
      {file : Option (List UInt8)} {initial : UInt64} {dataSet : Block UInt64} {bShuffle : Bool}
      (hshuffle : ∀ l, (shuffle l).Perm l) (htype : 0 < typeSequential)
      (h : getDataSet fuel shuffle file initial dataSet typeSequential bShuffle = .ok (.ok data)) :
      Benchmarked judy data
  | generated {fuel fuel' : ℕ} {distribution : ℕ → UInt64} {arg : Option ℤ} {file : List UInt8}
      {shuffle : List UInt64 → List UInt64} {initial : UInt64} {dataSet : Block UInt64}
      {bShuffle : Bool} (hshuffle : ∀ l, (shuffle l).Perm l)
      (hfile : generateDataSet judy distribution fuel' true (requestedSize arg) = .ok (.ok file))
      (h : getDataSet fuel shuffle (some file) initial dataSet 0 bShuffle = .ok (.ok data)) :
      Benchmarked judy data

/-- Its keys are distinct at either width, and its length is an accepted header. -/
structure Proper (data : List UInt64) : Prop where
  distinct : (data.map UInt64.toUInt32).Nodup
  length : HeaderAccepted (UInt64.ofNat data.length)
  length_lt : data.length < 2 ^ 29

theorem Proper.perm {data' : List UInt64} (h : Proper data) (hperm : data'.Perm data) :
    Proper data' where
  distinct := (hperm.map _).nodup_iff.mpr h.distinct
  length := hperm.length_eq ▸ h.length
  length_lt := hperm.length_eq ▸ h.length_lt

theorem proper_sequential (hheader : HeaderAccepted dataSetSize) :
    Proper ((List.range dataSetSize.toNat).map (sequential typeSequential dataSetSize)) := by
  have hlt := hheader.lt
  refine ⟨?_, ?_, ?_⟩
  · rw [List.map_map]
    refine List.Nodup.map_on (fun j hj k hk h => ?_) List.nodup_range
    rw [List.mem_range] at hj hk
    exact sequential_low_injective (by omega) (by omega) h
  · rwa [List.length_map, List.length_range, UInt64.ofNat_toNat]
  · rwa [List.length_map, List.length_range]

theorem getDataSet_approx {fuel fuel' : ℕ} (hle : fuel ≤ fuel')
    (shuffle : List UInt64 → List UInt64) (file : Option (List UInt8)) (initial : UInt64)
    (dataSet : Block UInt64) (typeSequential : ℕ) (bShuffle : Bool) :
    Exec.Approx (getDataSet fuel shuffle file initial dataSet typeSequential bShuffle)
      (getDataSet fuel' shuffle file initial dataSet typeSequential bShuffle) := by
  cases file with
  | none => exact .refl _
  | some bytes =>
    simp only [getDataSet]
    refine .ite (.refl _) ?_
    by_cases htype : typeSequential > 0
    · simp only [if_pos htype]
      exact .refl _
    · simp only [if_neg htype]
      exact (Exec.loop_approx (fun _ => .refl _) hle _).bind fun _ => .refl _

theorem getDataSet_sequential {fuel : ℕ} {shuffle : List UInt64 → List UInt64} {bytes : List UInt8}
    {initial : UInt64} {dataSet : Block UInt64} {bShuffle : Bool} (htype : 0 < typeSequential)
    (h : getDataSet fuel shuffle (some bytes) initial dataSet typeSequential bShuffle =
      .ok (.ok data)) :
    ∃ header, HeaderAccepted header ∧
      data = if bShuffle then
        shuffle ((List.range header.toNat).map (sequential typeSequential header))
      else (List.range header.toNat).map (sequential typeSequential header) := by
  simp only [getDataSet, if_pos htype] at h
  generalize word.decode _ = header at h
  by_cases hheader : HeaderAccepted header
  · rw [if_neg (not_not.mpr hheader)] at h
    injection h with h
    injection h with h
    exact ⟨header, hheader, h.symm⟩
  · rw [if_pos hheader] at h
    cases h

theorem getDataSet_encode (hheader : HeaderAccepted dataSetSize) (fuel : ℕ)
    (shuffle : List UInt64 → List UInt64) (initial : UInt64) (dataSet : Block UInt64)
    (typeSequential : ℕ) (htype : 0 < typeSequential) :
    getDataSet fuel shuffle (some (word.encode dataSetSize)) initial dataSet typeSequential false =
      .ok (.ok ((List.range dataSetSize.toNat).map (sequential typeSequential dataSetSize))) := by
  have hlength : (word.encode dataSetSize).length = word.width := word.length_encode dataSetSize
  have hread : (InFile.read ⟨word.encode dataSetSize, true⟩ word.width).1 = word.encode dataSetSize := by
    simp [InFile.read, hlength, List.take_of_length_le]
  have hdecode : word.decode (word.encode dataSetSize ++
      (word.encode initial).drop (word.encode dataSetSize).length) = dataSetSize := by
    rw [hlength, List.drop_of_length_le (word.length_encode initial).le, List.append_nil]
    exact word.decode_encode dataSetSize
  simp only [getDataSet, hread, hdecode, not_not.mpr hheader, if_false, if_pos htype]
  rfl

theorem Benchmarked.proper {J : Type} {judy : Judy1 J} {words : J → Set UInt64}
    (hjudy : judy.IsSet words) (h : Benchmarked judy data) : Proper data := by
  have hordered {bShuffle : Bool} {shuffle : List UInt64 → List UInt64} {l : List UInt64}
      (hshuffle : ∀ l, (shuffle l).Perm l) (hl : Proper l) :
      Proper (if bShuffle then shuffle l else l) := by
    split_ifs
    · exact hl.perm (hshuffle l)
    · exact hl
  cases h with
  | @sequential fuel typeSequential shuffle file initial dataSet bShuffle hshuffle htype h =>
    cases file with
    | none => cases h
    | some bytes =>
      obtain ⟨header, hheader, rfl⟩ := getDataSet_sequential htype h
      exact hordered hshuffle (proper_sequential hheader)
  | @generated fuel fuel' distribution arg file shuffle initial dataSet bShuffle hshuffle hfile h =>
    obtain ⟨n, -, hlength, hr⟩ := (hjudy.generateDataSet_ensures distribution arg fuel').value hfile
    obtain rfl := Except.ok.inj hr
    obtain ⟨more, hmore⟩ := exists_gt (max fuel ((requestedHeader arg).toNat / bufferSize))
    have hle : fuel ≤ more := (le_max_left _ _).trans hmore.le
    have henough : (requestedHeader arg).toNat / bufferSize < more := (le_max_right _ _).trans_lt hmore
    have hmore' := (getDataSet_approx hle shuffle _ initial dataSet 0 bShuffle).value h
    rw [getDataSet_encodeAll (requestedHeader_accepted arg) (bufferSize_dvd_requestedHeader arg)
      hlength henough] at hmore'
    obtain rfl := Except.ok.inj (Except.ok.inj hmore')
    refine hordered hshuffle ⟨(drawn distribution n).accepted_nodup, ?_, ?_⟩
    · rw [hlength, UInt64.ofNat_toNat]
      exact requestedHeader_accepted arg
    · rw [hlength]
      exact (requestedHeader_accepted arg).lt

end Keys

section Runs

variable {dataSetSize : UInt64} {arg2 arg3 arg4 : Option Argument} {data : List UInt64}

theorem loads_maxLoad (h : HeaderAccepted dataSetSize) (arg2 arg3 arg4 : Option Argument) :
    ∃ size ∈ vectorDataSetSize, ∃ n ≤ size, (arg2 = none → n = size) ∧
      (size + 2) * 2 ^ 20 ≤ dataSetSize.toNat ∧ dataSetSize.toNat < (size + 3) * 2 ^ 20 ∧
      (loads dataSetSize arg2 arg3 arg4).maxLoad.toNat = n * 1000000 := by
  obtain ⟨size, hsize, hlow, hhigh, -⟩ := headerAccepted_iff.mp h
  have hle : size ≤ 256 := by
    simp only [vectorDataSetSize, List.mem_cons, List.not_mem_nil, or_false] at hsize
    omega
  have hmax : ((dataSetSize - UInt64.ofNat testVectorSize) / 1024 / 1024).toNat = size := by
    have hsub : (dataSetSize - UInt64.ofNat testVectorSize).toNat =
        (2 ^ 64 - 2 ^ 21 + dataSetSize.toNat) % 2 ^ 64 := UInt64.toNat_sub _ _
    rw [UInt64.toNat_div, UInt64.toNat_div, hsub]
    show _ / 1024 / 1024 = size
    omega
  have htimes {x : UInt64} {n : ℕ} (hx : x.toNat = n) (hn : n ≤ size) :
      (x * 1000000).toNat = n * 1000000 := by
    rw [UInt64.toNat_mul, hx]
    show n * 1000000 % 2 ^ 64 = n * 1000000
    omega
  refine ⟨size, hsize, ?_⟩
  cases arg2 with
  | none => exact ⟨size, le_rfl, fun _ => rfl, hlow, hhigh, htimes hmax le_rfl⟩
  | some arg =>
    by_cases hchosen : 1 ≤ arg.atoi ∧
        arg.atoi ≤ ((dataSetSize - UInt64.ofNat testVectorSize) / 1024 / 1024).toNat
    · have hn : arg.atoi.toNat ≤ size := by omega
      have hword : (UInt64.ofInt arg.atoi).toNat = arg.atoi.toNat := by
        rw [UInt64.ofInt, UInt64.toNat_ofNat']
        omega
      refine ⟨arg.atoi.toNat, hn, by simp, hlow, hhigh, ?_⟩
      simp only [loads, if_pos hchosen]
      exact htimes hword hn
    · refine ⟨size, le_rfl, by simp, hlow, hhigh, ?_⟩
      simp only [loads, if_neg hchosen]
      exact htimes hmax le_rfl

theorem loads_stepLoad (arg2 arg3 arg4 : Option Argument) :
    (loads dataSetSize arg2 arg3 arg4).stepLoad.toNat ≤ 10000000 := by
  have hdefault : (1000000 : UInt64).toNat ≤ 10000000 := by decide
  cases arg4 with
  | none => exact hdefault
  | some arg =>
    by_cases hchosen : arg.atof > 0 ∧ arg.atof ≤ 10
    · simp only [loads, if_pos hchosen]
      exact UInt64.le_iff_toNat_le.mp (arg.millions_le hchosen.2)
    · simp only [loads, if_neg hchosen]
      exact hdefault

/-- Keys of the width of a word, or of its low half. -/
def IsKey {K : Type} (ty : KeyType K) : Prop :=
  ∀ x y, ty.cast x = ty.cast y → x.toUInt32 = y.toUInt32

theorem isKey_uint64 : IsKey .uint64 := fun _ _ h => congrArg UInt64.toUInt32 h

variable {K : Type} [DecidableEq K] {ty : KeyType K} {c : Template K} {fuel : ℕ}
  {memory : Memory K K} {width : ℕ} {sampler : Sampler} {BenchFlags : UInt64}

/-- `BenchSimdHashMap`, `BenchSimdHashSet` or `BenchSimdHashIndex`, for one hash, as `main` calls it. -/
def run (ty : KeyType K) (c : Template K) (fuel : ℕ) (memory : Memory K K) (width : ℕ)
    (sampler : Sampler) (BenchFlags : UInt64) (data : List UInt64)
    (arg2 arg3 arg4 : Option Argument) : Exec (List ℕ × Option (Core K K)) :=
  let loads := loads (UInt64.ofNat data.length) arg2 arg3 arg4
  bench ty c fuel memory width sampler BenchFlags data loads.startLoad.toNat loads.maxLoad.toNat
    loads.stepLoad.toNat

omit [DecidableEq K] in
theorem opCount_pos {type : ContainerType} {tt : TestType} {load : ℕ} (hpos : 0 < load)
    (hunknown : tt = .test2 → ∃ x ∈ (sampled sampler data load (load / 100)).unknownVector,
      x ∉ data.take load)
    (hsegment : tt = .test3 ∨ tt = .test4 → 20 ≤ load) : 0 < opCount type load tt := by
  have hmany (h : 20 ≤ load) : 0 < 3 * (load * 5 / 100) := by omega
  cases tt with
  | test2 =>
    obtain ⟨x, hx, -⟩ := hunknown rfl
    have hlen := List.length_pos_of_mem hx
    rw [sampled, sampler.length] at hlen
    refine Nat.mul_pos ?_ (hlen.trans_le (min_le_left _ _))
    split_ifs <;> decide
  | test3 => exact hmany (hsegment (.inl rfl))
  | test4 => exact hmany (hsegment (.inr rfl))
  | test5 => exact Nat.mul_pos (by decide) hpos
  | unknown => exact hpos
  | test1 => exact hpos

omit [DecidableEq K] in
/-- On a data set that `main` benchmarks a load passes below 209715300, which
gives the test vectors their full size. -/
theorem Proper.passes_iff (h : Proper data) {load : ℕ} (type : ContainerType) {tt : TestType}
    (hload : load ≤ (loads (UInt64.ofNat data.length) arg2 arg3 arg4).maxLoad.toNat) :
    LoadPasses sampler tt data load ∧ LoadCounts type tt load ↔ 0 < load ∧ load < 209715300 ∧
      (tt = .test2 → ∃ x ∈ (sampled sampler data load (load / 100)).unknownVector,
        x ∉ data.take load) ∧ (tt = .test3 ∨ tt = .test4 → 20 ≤ load) := by
  obtain ⟨size, -, n, hn, -, hlow, -, hmax⟩ := loads_maxLoad h.length arg2 arg3 arg4
  have hlength : (UInt64.ofNat data.length).toNat = data.length := by
    have := h.length_lt
    rw [UInt64.toNat_ofNat']
    omega
  rw [hmax] at hload
  rw [hlength] at hlow
  constructor
  · rintro ⟨hpass, hcounts⟩
    have htest := hpass.testLoad
    rw [testVectorSize] at htest
    refine ⟨hcounts.load_pos, by omega, hpass.unknown, ?_⟩
    rintro (rfl | rfl)
    · have hops : 0 < 3 * (load * 5 / 100) := hcounts.ops_pos (by simp)
      omega
    · exact hpass.segment rfl
  · rintro ⟨hpos, hbelow, hunknown, hsegment⟩
    refine ⟨⟨by omega, ?_, hunknown, fun h => hsegment (.inr h)⟩, hpos, fun _ => ?_⟩
    · rw [testVectorSize]
      omega
    · exact opCount_pos hpos hunknown hsegment

/-- What `main` runs in a power-of-two mode ends, and without a failed assertion
or a division by zero exactly if no load is zero or reaches 209715300, and the
test has words for it. With the largest data set a load reaches it. -/
theorem main_run_returns_iff {J : Type} {judy : Judy1 J} {words : J → Set UInt64}
    (hjudy : judy.IsSet words) (hdata : Benchmarked judy data) (hty : IsKey ty)
    (hfix : c.bFix = false) (hm : c.mode.isPowerOfTwo) (hfuel : maxSize < fuel) (hw : IsWidth width)
    (hstep : 0 < (loads (UInt64.ofNat data.length) arg2 arg3 arg4).stepLoad.toNat)
    (hreuse : bReuse BenchFlags = true → testType BenchFlags ≠ .test2) :
    run ty c fuel memory width sampler BenchFlags data arg2 arg3 arg4 ≠ .error .timeout ∧
      ((∃ r, run ty c fuel memory width sampler BenchFlags data arg2 arg3 arg4 = .ok r) ↔
        ∀ i load, load = (loads (UInt64.ofNat data.length) arg2 arg3 arg4).startLoad.toNat +
            i * (loads (UInt64.ofNat data.length) arg2 arg3 arg4).stepLoad.toNat →
          load ≤ (loads (UInt64.ofNat data.length) arg2 arg3 arg4).maxLoad.toNat →
          0 < load ∧ load < 209715300 ∧
          (testType BenchFlags = .test2 →
            ∃ x ∈ (sampled sampler data load (load / 100)).unknownVector, x ∉ data.take load) ∧
          (testType BenchFlags = .test3 ∨ testType BenchFlags = .test4 → 20 ≤ load)) := by
  have hproper := hdata.proper hjudy
  obtain ⟨size, hsize, n, hn, -, -, -, hmax⟩ := loads_maxLoad hproper.length arg2 arg3 arg4
  have hmax' : (loads (UInt64.ofNat data.length) arg2 arg3 arg4).maxLoad.toNat ≤ 256000000 := by
    simp only [vectorDataSetSize, List.mem_cons, List.not_mem_nil, or_false] at hsize
    omega
  have hlast : (loads (UInt64.ofNat data.length) arg2 arg3 arg4).stepLoad.toNat ≤ 10000000 :=
    loads_stepLoad arg2 arg3 arg4
  have hdistinct : (data.map ty.cast).Nodup := by
    refine List.Nodup.map_on (fun x hx y hy h => ?_) (hproper.distinct.of_map _)
    exact List.inj_on_of_nodup_map hproper.distinct hx hy (hty x y h)
  have hlength : data.length < 2 ^ 32 := hproper.length_lt.trans (by decide)
  have hrun : Exec.Ensures (run ty c fuel memory width sampler BenchFlags data arg2 arg3 arg4) _ _ :=
    bench_ensures (.peaceful hfix hm hfuel) hw hdistinct hlength (by omega) (fun _ => by omega)
      (fun _ => hstep) fun _ => hreuse
  refine (hrun.imp (fun r hr => hr) fun e he => ?_).returns_iff ?_
  · refine he.peaceful.imp_left fun hfail hall => hfail ?_
    exact ⟨fun i hi => ((hproper.passes_iff c.type hi).mpr (hall i _ rfl hi)).1,
      fun i hi => ((hproper.passes_iff c.type hi).mpr (hall i _ rfl hi)).2⟩
  · intro r hr
    obtain ⟨n, hend, hreport⟩ := hr
    rintro i load rfl hi
    obtain ⟨hpass, hcounts⟩ := hreport.all hend
    exact (hproper.passes_iff c.type hi).mp ⟨hpass i hi, hcounts i hi⟩

theorem main_run_returns_iff_sequential : ∃ data,
    getDataSet 0 id (some (word.encode 270532608)) 0 ⟨0, fun _ => 0⟩ 1 false = .ok (.ok data) ∧
    ¬ ∃ r, run .uint64 ⟨.map, .fast, false, true, id⟩ (maxSize + 1) clearedMemory 16 lastWords 0 data
      none none none = .ok r := by
  have hheader : HeaderAccepted 270532608 := by decide
  refine ⟨_, getDataSet_encode hheader 0 id 0 ⟨0, fun _ => 0⟩ 1 (by decide), ?_⟩
  set data := (List.range (270532608 : UInt64).toNat).map (sequential 1 270532608) with hdata
  have hlength : data.length = 270532608 := by
    rw [hdata, List.length_map, List.length_range]
    rfl
  have hsource : Benchmarked listed data := .sequential (fun l => List.Perm.refl l) (by decide)
    (getDataSet_encode hheader 0 id 0 ⟨0, fun _ => 0⟩ 1 (by decide))
  have hloads : loads (UInt64.ofNat data.length) none none none = ⟨1000000, 256000000, 1000000⟩ := by
    rw [hlength]
    rfl
  have hends : _ ∧ ((∃ r, run .uint64 ⟨.map, .fast, false, true, id⟩ (maxSize + 1) clearedMemory 16
      lastWords 0 data none none none = .ok r) ↔ _) :=
    main_run_returns_iff listed_isSet hsource isKey_uint64 rfl (.inl rfl) (Nat.lt_succ_self maxSize)
      (.inl rfl) (by rw [hloads]; decide) (by decide)
  intro hok
  have hall := hends.2.mp hok 209 210000000
  rw [hloads] at hall
  exact absurd (hall (by decide) (by decide)).2.1 (by decide)

end Runs

end Application

end SimdHash
