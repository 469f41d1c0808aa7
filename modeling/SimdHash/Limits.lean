import SimdHash.Calls

/-! The growth limit over runs in the power-of-two modes, and what follows for
insertions and rebuilds: they end. -/

namespace SimdHash

open OpenAddressing TagVector Transition

section Limits

variable {capacity : ℕ} {factor : ℚ}

theorem growthLimit_add_le (h : IsCapacity capacity) (hlt : capacity < maxSize)
    (hfactor : factor ≤ LoadFactor.max) : growthLimit capacity factor + 40 ≤ capacity := by
  have hmin : (4096 : ℚ) ≤ capacity := by exact_mod_cast h.min_le
  have hprod : (capacity : ℚ) * factor ≤ capacity - 40 := by
    have hmul : (capacity : ℚ) * factor ≤ capacity * LoadFactor.max :=
      mul_le_mul_of_nonneg_left hfactor (by positivity)
    norm_num [LoadFactor.max] at hmul
    linarith
  have hfloor : ⌊(capacity : ℚ) * factor⌋₊ ≤ capacity - 40 := by
    refine Nat.floor_le_of_le ?_
    have h40 : 40 ≤ capacity := (show 40 ≤ minSize by decide).trans h.min_le
    rw [Nat.cast_sub h40]
    exact hprod
  have hmin' : minSize ≤ capacity := h.min_le
  simp only [minSize] at hmin'
  rw [growthLimit, if_pos hlt]
  omega

theorem le_growthLimit (hfactor : LoadFactor.min ≤ factor) (hlt : capacity < maxSize) :
    3 * capacity / 4 ≤ growthLimit capacity factor := by
  rw [growthLimit, if_pos hlt]
  refine Nat.le_floor ?_
  have hdiv : ((3 * capacity / 4 : ℕ) : ℚ) ≤ 3 * capacity / 4 := by
    have := Nat.cast_div_le (α := ℚ) (m := 3 * capacity) (n := 4)
    push_cast at this
    exact this
  have hmul : (capacity : ℚ) * LoadFactor.min ≤ capacity * factor :=
    mul_le_mul_of_nonneg_left hfactor (by positivity)
  norm_num [LoadFactor.min] at hmul
  linarith

theorem growthLimit_mono {capacity' : ℕ} (hfactor : LoadFactor.min ≤ factor)
    (hle : capacity ≤ capacity') (hlt : capacity' < maxSize) :
    growthLimit capacity factor ≤ growthLimit capacity' factor := by
  rw [growthLimit, growthLimit, if_pos (hle.trans_lt hlt), if_pos hlt]
  refine Nat.floor_le_floor ?_
  have hpos : 0 ≤ factor := le_trans (by norm_num [LoadFactor.min]) hfactor
  exact mul_le_mul_of_nonneg_right (by exact_mod_cast hle) hpos

theorem adjustCapacity_grows {mode : Mode} (hm : mode.isPowerOfTwo) {k : ℕ}
    (hk : capacity = 2 ^ k) (hlt : capacity < maxSize) :
    2 * capacity ≤ adjustCapacity mode (capacity + 1) := by
  obtain ⟨k', -, -, hk', hle⟩ := adjustCapacity_powerOfTwo hm (capacity + 1)
  have hpow : 2 ^ k < 2 ^ k' := by
    have := hle hlt
    omega
  have hlt' : k < k' := (Nat.pow_lt_pow_iff_right (by decide)).mp hpow
  have hmono : 2 ^ (k + 1) ≤ 2 ^ k' := Nat.pow_le_pow_right (by decide) hlt'
  rw [hk', hk]
  rw [pow_succ] at hmono
  omega

end Limits

namespace Core

variable {K V : Type} {c : Template K} {s t : Core K V}

/-- Below `MAX_SIZE` the count has not reached the limit. -/
def Bounded (s : Core K V) : Prop := s.capacity < maxSize → s.count < s.countGrowthLimit

/-- The calls that do not bring the limit down to the count or below it. -/
def KeepsLimit (s : Core K V) : Op K V c.type → Prop
  | .setMaxLoadFactor mlf => Bounded (s.setMaxLoadFactor mlf)
  | _ => True

theorem Inv.limit_pos (h : s.Inv c) (hlt : s.capacity < maxSize) : 0 < s.countGrowthLimit := by
  have hle := le_growthLimit h.factor_min hlt
  have hmin : 4096 ≤ s.capacity := h.geometry.isCapacity.min_le
  rw [h.limit_eq]
  omega

theorem Inv.limit_add_le (h : s.Inv c) (hlt : s.capacity < maxSize) :
    s.countGrowthLimit + 40 ≤ s.capacity := by
  rw [h.limit_eq]
  exact growthLimit_add_le h.geometry.isCapacity hlt h.factor_max

theorem Inserted.bounded (h : s.Inv c) (hm : c.mode.isPowerOfTwo) (hb : Bounded s) {i : ℕ} {key : K}
    {value : V} (ht : Inserted c s i key value t) : Bounded t := by
  intro hlt
  have hcap := ht.capacity
  rw [ht.count, ht.limit_eq, ht.factor]
  by_cases hlimit : s.count + 1 = s.countGrowthLimit
  · rw [if_pos hlimit] at hcap
    have hs : s.capacity < maxSize := (hcap ▸ le_max_left _ _).trans_lt hlt
    obtain ⟨k, hk⟩ := h.geometry.powerOfTwo hm
    have hgrow := adjustCapacity_grows hm hk hs
    have hge : 2 * s.capacity ≤ t.capacity := hgrow.trans (hcap ▸ le_max_right _ _)
    have hnew := le_growthLimit h.factor_min hlt
    have hold := h.limit_add_le hs
    omega
  · rw [if_neg hlimit] at hcap
    have hs := hb (hcap ▸ hlt)
    rw [hcap, ← h.limit_eq]
    omega

theorem Resized.bounded (h : s.Inv c) (hb : Bounded s) {size : ℕ} (ht : Resized c s size t) :
    Bounded t := by
  intro hlt
  have hle : s.capacity ≤ t.capacity := ht.capacity ▸ le_max_left _ _
  have hs := hb (hle.trans_lt hlt)
  have hmono := growthLimit_mono h.factor_min hle hlt
  rw [ht.count, ht.limit_eq, ht.factor]
  rw [h.limit_eq] at hs
  omega

theorem Outcome.bounded {op : Op K V c.type} {r : Result V} (h : s.Inv c)
    (hm : c.mode.isPowerOfTwo) (hb : Bounded s) (hok : KeepsLimit s op) (ho : Outcome c s op r t) :
    Bounded t := by
  have hadded {bUnique bUpdate b : Bool} {key : K} {value : V} {index : ℕ}
      (hr : Added c s bUnique bUpdate key value ((b, index), t)) : Bounded t := by
    cases hr with
    | inserted hslot ht => exact ht.bounded h hm hb
    | found hchecked hslot hlive hkey =>
      split_ifs
      · exact hb
      · exact hb
  cases ho with
  | add hr => exact hadded hr
  | addOrUpdate hr => exact hadded hr
  | tryAdd hr => exact hadded hr
  | remove hr =>
    cases hr with
    | removed hmet hlive hkey =>
      intro hlt
      exact (Nat.sub_le _ _).trans_lt (hb hlt)
    | absent hunmet => exact hb
  | contains hr => exact hb
  | foundValue hmet hlive hkey => exact hb
  | noValue hunmet => exact hb
  | tryGetIndex hr => exact hb
  | resize hr => exact hr.bounded h hb
  | rehash hr => exact hr.bounded h hb
  | clear hinv hcount hclean hfactor hcap =>
    intro hlt
    rw [hcount]
    exact hinv.limit_pos hlt
  | setMaxLoadFactor => exact hok

section Ends

theorem Inv.roomy (h : s.Inv c) (hco : Nat.Coprime 15 (s.capacity / pageSize))
    (hlt : s.capacity < maxSize) (hb : Bounded s) {fuel : ℕ} (hfuel : maxSize ≤ fuel) :
    Roomy s.capacity fuel (s.count + 1) where
  coprime := hco
  fuel := h.geometry.isCapacity.le_max.trans hfuel
  slots := by
    have := h.limit_add_le hlt
    have := hb hlt
    omega

theorem adjustCapacity_coprime (hm : c.mode.isPowerOfTwo) (s : Core K V) (size : ℕ) :
    Nat.Coprime 15 (adjustCapacity c.mode size / pageSize) := by
  have hco := (initCapacity_geometry s size).coprime_of_powerOfTwo hm
  rwa [initCapacity_capacity] at hco

theorem Inv.resize_returns (h : s.Inv c) (hm : c.mode.isPowerOfTwo) {fuel : ℕ}
    (hroom : s.count + 15 ≤ s.capacity) (hfuel : maxSize ≤ fuel) (size : ℕ) :
    ∃ t, s.resize c fuel size = .ok t ∧ Resized c s size t := by
  by_cases hgt : s.capacity > adjustCapacity c.mode size
  · have hrun : Exec.Ensures (s.resize c fuel size) (Resized c s size)
        (ResizeFault c fuel size s.count) := h.resize_ensures size
    rw [resize_of_gt hgt] at hrun
    exact ⟨s, resize_of_gt hgt, hrun⟩
  · refine (h.resize_ensures size).returns ?_
    rintro e ⟨-, ⟨-, hstuck⟩ | ⟨-, hmode⟩⟩
    · have hslots : s.count + 15 ≤ adjustCapacity c.mode size := hroom.trans (not_lt.mp hgt)
      exact hstuck ⟨adjustCapacity_coprime hm s size,
        (adjustCapacity_isCapacity c.mode size).le_max.trans hfuel, hslots⟩
    · rcases hm with hm | hm <;> rw [hm] at hmode <;> cases hmode

theorem Inv.rehash_returns (h : s.Inv c) (hm : c.mode.isPowerOfTwo) (hnot : c.type ≠ .index)
    {fuel : ℕ} (hroom : s.count + 15 ≤ s.capacity) (hfuel : maxSize ≤ fuel) :
    ∃ t, s.rehash c fuel = .ok t ∧ Resized c s 0 t := by
  refine (h.rehash_ensures hnot).returns ?_
  intro e he
  obtain ⟨-, hstuck⟩ := he
  exact hstuck ⟨h.geometry.coprime_of_powerOfTwo hm,
    h.geometry.isCapacity.le_max.trans hfuel, hroom⟩

theorem Inv.add_fault (h : s.Inv c) {fuel : ℕ} (hroom : Roomy s.capacity fuel (s.count + 1))
    (hfuel : maxSize ≤ fuel) {key : K} {e : Fault} (he : AddFault c s fuel key e) :
    s.count + 1 = s.countGrowthLimit ∧ ResizeFault c fuel (s.capacity + 1) (s.count + 1) e := by
  rcases he with ⟨-, hsmall | hfull⟩ | hgrow
  · have : 2 ^ 16 ≤ maxSize := by decide
    omega
  · obtain ⟨n, hn, hfree⟩ := h.geometry.hasFree h.size_eq hroom
      (t := s.slots c) (h.count_eq ▸ Nat.lt_succ_self s.count) (c.hasher key)
    exact absurd hfree (hfull n hn)
  · exact hgrow

theorem Inv.add_returns [DecidableEq K] (h : s.Inv c) (hm : c.mode.isPowerOfTwo)
    (hlt : s.capacity < maxSize) (hb : Bounded s) {fuel : ℕ} (hfuel : maxSize ≤ fuel)
    (bUnique bUpdate : Bool) (key : K) (value : V) :
    ∃ r, s.add c fuel bUnique bUpdate key value = .ok r ∧
      Added c s bUnique bUpdate key value r := by
  have hroom := h.roomy (h.geometry.coprime_of_powerOfTwo hm) hlt hb hfuel
  refine h.add_ensures.returns ?_
  intro e he
  obtain ⟨hlimit, -, ⟨-, hstuck⟩ | ⟨-, hmode⟩⟩ := h.add_fault hroom hfuel he
  · obtain ⟨k, hk⟩ := h.geometry.powerOfTwo hm
    have hgrow := adjustCapacity_grows hm hk hlt
    have hslots := hroom.slots
    exact hstuck ⟨adjustCapacity_coprime hm s _,
      (adjustCapacity_isCapacity c.mode _).le_max.trans hfuel, by omega⟩
  · rcases hm with hm | hm <;> rw [hm] at hmode <;> cases hmode

end Ends

section Runs

variable [DecidableEq K]

/-- The load factor is set only while the container is empty. -/
def FixedFactor (s : Core K V) : Op K V c.type → Prop
  | .setMaxLoadFactor _ => s.count = 0
  | _ => True

omit [DecidableEq K] in
theorem FixedFactor.keepsLimit {op : Op K V c.type} (h : s.Inv c) (hop : FixedFactor s op) :
    KeepsLimit s op := by
  cases op with
  | setMaxLoadFactor mlf =>
    intro hlt
    have hpos := (h.setMaxLoadFactor mlf).limit_pos hlt
    rwa [show (s.setMaxLoadFactor mlf).count = 0 from hop]
  | _ => trivial

theorem Bounded.run {ok : Core K V → Op K V c.type → Prop}
    {trace : List (Op K V c.type × Result V × ℕ)} (hb : Bounded s) (h : s.Inv c)
    (hm : c.mode.isPowerOfTwo) (hok : ∀ s op, s.Inv c → ok s op → KeepsLimit s op)
    (hrun : Run (guard ok (Call c)) s trace t) : t.Inv c ∧ Bounded t := by
  refine hrun.invariant (I := fun s => s.Inv c ∧ Bounded s) ?_ ⟨h, hb⟩
  rintro s op out t ⟨hinv, hb⟩ ⟨hop, hcall⟩
  have ho := (hcall.outcome hinv).1
  exact ⟨ho.inv hinv, ho.bounded hinv hm hb (hok s op hinv hop)⟩

omit [DecidableEq K] in
theorem Inv.bounded_of_empty (h : s.Inv c) (hcount : s.count = 0) : Bounded s :=
  fun hlt => hcount.symm ▸ h.limit_pos hlt

theorem Constructed.run_bounded {ok : Core K V → Op K V c.type → Prop} {start : Core K V}
    {trace : List (Op K V c.type × Result V × ℕ)} (hm : c.mode.isPowerOfTwo)
    (hok : ∀ s op, s.Inv c → ok s op → KeepsLimit s op) (hstart : Constructed c start)
    (hrun : Run (guard ok (Call c)) start trace s) : s.Inv c ∧ Bounded s := by
  obtain ⟨hinv, hcount, -⟩ := hstart.start
  exact (hinv.bounded_of_empty hcount).run hinv hm hok hrun

theorem Inv.exists_insertions (h : s.Inv c) (hm : c.mode.isPowerOfTwo)
    (hlt : s.capacity < maxSize) (keys : ℕ → K) (value : V) {n : ℕ}
    (hn : s.count + n < s.countGrowthLimit) :
    ∃ trace t, Run (Call c) s trace t ∧
      trace.map Prod.fst = (List.range n).map (fun k => .add true (keys k) value) ∧ t.Inv c ∧
      t.count = s.count + n ∧ t.capacity = s.capacity ∧ t.maxLoadFactor = s.maxLoadFactor := by
  induction n with
  | zero => exact ⟨[], s, .nil s, rfl, h, rfl, rfl, rfl⟩
  | succ n ih =>
    obtain ⟨trace, t, hrun, hops, ht, hcount, hcap, hfactor⟩ := ih (by omega)
    have hlimit : t.countGrowthLimit = s.countGrowthLimit := by
      rw [ht.limit_eq, h.limit_eq, hcap, hfactor]
    obtain ⟨r, hadd, hr⟩ := ht.add_returns hm (hcap ▸ hlt) (fun _ => by omega) le_rfl true false
      (keys n) value
    cases hr with
    | @inserted i u hslot hu =>
      have hcall : Call c t (.add true (keys n) value) (.bool true, u.count) u := by
        refine ⟨maxSize, ?_, rfl⟩
        simp [step, hadd]
      have hcap' := hu.capacity
      rw [if_neg (by omega)] at hcap'
      refine ⟨_, u, hrun.snoc hcall, ?_, hu.toInv, ?_, hcap'.trans hcap, hu.factor.trans hfactor⟩
      · rw [List.map_append, hops, List.range_succ, List.map_append]
        rfl
      · rw [hu.count, hcount]
        rfl
    | found hchecked => cases hchecked

/-- In the power-of-two modes every insertion, `Resize` and `Rehash` ends, in
every state below `MAX_SIZE` that a container reaches whose load factor is set
before it is filled. -/
theorem insertions_and_rebuilds_end (hm : c.mode.isPowerOfTwo) {start : Core K V}
    {trace : List (Op K V c.type × Result V × ℕ)} (hstart : Constructed c start)
    (hrun : Run (guard FixedFactor (Call c)) start trace s) (hlt : s.capacity < maxSize) :
    (∀ bUnique bUpdate key value, ∃ fuel r, s.add c fuel bUnique bUpdate key value = .ok r) ∧
    (∀ size, ∃ fuel t, s.resize c fuel size = .ok t) ∧
    (c.type ≠ .index → ∃ fuel t, s.rehash c fuel = .ok t) := by
  obtain ⟨h, hb⟩ := hstart.run_bounded hm (fun s op hinv hop => hop.keepsLimit hinv) hrun
  have hroom : s.count + 15 ≤ s.capacity := by
    have := h.limit_add_le hlt
    have := hb hlt
    omega
  refine ⟨?_, ?_, ?_⟩
  · intro bUnique bUpdate key value
    obtain ⟨r, hr, -⟩ := h.add_returns hm hlt hb le_rfl bUnique bUpdate key value
    exact ⟨maxSize, r, hr⟩
  · intro size
    obtain ⟨t, ht, -⟩ := h.resize_returns hm hroom le_rfl size
    exact ⟨maxSize, t, ht⟩
  · intro hnot
    obtain ⟨t, ht, -⟩ := h.rehash_returns hm hnot hroom le_rfl
    exact ⟨maxSize, t, ht⟩

theorem insertions_and_rebuilds_end_constantHash : ∃ s : Core ℕ ℕ, s.count = 3000 ∧
    ∀ key value, ∃ fuel r,
      s.add (constantHash .map .fast false) fuel false true key value = .ok r := by
  obtain ⟨start, hstart⟩ := exists_constructed (constantHash .map .fast false) zeroedMemory
  obtain ⟨h, hcount, -, hcap, hfactor⟩ := hstart.start
  have hlt : start.capacity < maxSize := by
    rw [hcap]
    decide
  have hlimit : start.count + 3000 < start.countGrowthLimit := by
    rw [hcount, h.limit_eq, hcap, hfactor]
    decide +kernel
  obtain ⟨trace, s, hrun, hops, -, hs, hscap, -⟩ := h.exists_insertions (.inl rfl) hlt id 0 hlimit
  have hguard : Run (guard FixedFactor (Call (constantHash .map .fast false))) start trace s := by
    refine hrun.guard_of fun call hcall _ => ?_
    have hmem : call.1 ∈ trace.map Prod.fst := List.mem_map_of_mem hcall
    rw [hops, List.mem_map] at hmem
    obtain ⟨k, -, hk⟩ := hmem
    rw [← hk]
    trivial
  refine ⟨s, hs.trans (by rw [hcount]), ?_⟩
  exact (insertions_and_rebuilds_end (.inl rfl) hstart hguard (hscap ▸ hlt)).1 false true

omit [DecidableEq K] in
theorem setMaxLoadFactor_limit (hcap : s.capacity = minSize) :
    (s.setMaxLoadFactor (.finite (3 / 4))).countGrowthLimit = 3072 := by
  have hchosen : (FloatValue.finite (3 / 4)).accepted? = some (3 / 4) := by decide +kernel
  simp only [setMaxLoadFactor, hchosen, hcap, Option.getD_some]
  decide +kernel

/-- In the power-of-two modes the limit is below the capacity in every state, up
to `MAX_SIZE`, where the two are the same. A count that is zero or below the
limit stays below it as long as no `max_load_factor` brings the limit down to
the count. -/
theorem count_limit_capacity (hm : c.mode.isPowerOfTwo) (hs : Reachable c s) :
    (s.capacity < maxSize → s.countGrowthLimit < s.capacity) ∧
    (s.capacity = maxSize → s.countGrowthLimit = s.capacity ∧ s.count ≤ s.capacity) ∧
    (s.count = 0 ∨ s.count < s.countGrowthLimit → ∀ trace t,
      Run (guard KeepsLimit (Call c)) s trace t → t.capacity < maxSize →
      t.count < t.countGrowthLimit) := by
  have h := hs.inv
  refine ⟨?_, ?_, ?_⟩
  · intro hlt
    have := h.limit_add_le hlt
    omega
  · intro hmax
    refine ⟨by rw [h.limit_eq, growthLimit, if_neg (by omega), hmax], ?_⟩
    rw [h.count_eq, ← h.size_eq]
    exact card_content_le.trans (Finset.card_range _).le
  · intro hcount trace t hrun
    have hb : Bounded s := by
      rcases hcount with hcount | hcount
      · exact h.bounded_of_empty hcount
      · exact fun _ => hcount
    exact (hb.run h hm (fun _ _ _ hop => hop) hrun).2

theorem count_limit_capacity_constantHash : ∃ s t : Core ℕ ℕ, s.count = 3000 ∧
    Call (constantHash .map .fast false) s (.setMaxLoadFactor (.finite (3 / 4))) (.void, 3000) t ∧
    t.count < t.countGrowthLimit ∧ s.countGrowthLimit < s.capacity := by
  obtain ⟨start, hstart⟩ := exists_constructed (constantHash .map .fast false) zeroedMemory
  obtain ⟨h, hcount, -, hcap, hfactor⟩ := hstart.start
  have hlt : start.capacity < maxSize := by
    rw [hcap]
    decide
  have hlimit : start.count + 3000 < start.countGrowthLimit := by
    rw [hcount, h.limit_eq, hcap, hfactor]
    decide +kernel
  obtain ⟨trace, s, hrun, -, hs, hscount, hscap, hsfactor⟩ :=
    h.exists_insertions (.inl rfl) hlt id 0 hlimit
  rw [hcount, Nat.zero_add] at hscount
  have hsame : (s.setMaxLoadFactor (.finite (3 / 4))).count = s.count := rfl
  have hkeeps : KeepsLimit (c := constantHash .map .fast false) s
      (.setMaxLoadFactor (.finite (3 / 4))) := by
    intro _
    rw [setMaxLoadFactor_limit (hscap.trans hcap), hsame, hscount]
    decide
  have hcall : Call (constantHash .map .fast false) s (.setMaxLoadFactor (.finite (3 / 4)))
      (.void, 3000) (s.setMaxLoadFactor (.finite (3 / 4))) := ⟨0, rfl, hscount.symm⟩
  have hbelow : s.count < s.countGrowthLimit := by
    rw [hs.limit_eq, hscap, hsfactor, ← h.limit_eq, hscount]
    omega
  have hslt : s.capacity < maxSize := hscap ▸ hlt
  obtain ⟨hlimits, -, hruns⟩ :=
    count_limit_capacity (c := constantHash .map .fast false) (.inl rfl) ⟨start, trace, hstart, hrun⟩
  exact ⟨s, _, hscount, hcall,
    hruns (.inr hbelow) _ _ (.cons ⟨hkeeps, hcall⟩ (.nil _)) hslt, hlimits hslt⟩

/-- The limit meets the capacity at `MAX_SIZE`, and a `max_load_factor` can
bring it below the count. -/
theorem limit_not_strict :
    (∃ s t : Core ℕ ℕ, Constructed (constantHash .map .fast false) s ∧
      Call (constantHash .map .fast false) s (.resize (2 ^ 31)) (.void, 0) t ∧
      t.countGrowthLimit = t.capacity) ∧
    ∃ (s t : Core ℕ ℕ) (trace : List (Op ℕ ℕ .map × Result ℕ × ℕ)),
      Constructed (constantHash .map .fast false) s ∧
      Run (Call (constantHash .map .fast false)) s trace t ∧
      trace.map Prod.fst = (List.range 3073).map (fun k => .add true k 0) ++
        [.setMaxLoadFactor (.finite (3 / 4))] ∧
      t.countGrowthLimit < t.count := by
  obtain ⟨s, hstart⟩ := exists_constructed (constantHash .map .fast false) zeroedMemory
  obtain ⟨h, hcount, -, hcap, hfactor⟩ := hstart.start
  have hlt : s.capacity < maxSize := by
    rw [hcap]
    decide
  constructor
  · have hroom : s.count + 15 ≤ s.capacity := by
      rw [hcount, hcap]
      decide
    obtain ⟨t, hresize, ht⟩ := h.resize_returns (.inl rfl) hroom le_rfl (2 ^ 31)
    have htcap : t.capacity = maxSize := by
      rw [ht.capacity, hcap, adjustCapacity_of_ge (show maxSize ≤ 2 ^ 31 from le_rfl)]
      rfl
    refine ⟨s, t, hstart, ⟨maxSize, ?_, ?_⟩, ?_⟩
    · simp only [step, hresize, Exec.ok_bind]
    · rw [ht.count, hcount]
    · rw [ht.limit_eq, htcap]
      rfl
  · have hlimit : s.count + 3073 < s.countGrowthLimit := by
      rw [hcount, h.limit_eq, hcap, hfactor]
      decide +kernel
    obtain ⟨trace, t, hrun, hops, ht, htcount, htcap, -⟩ :=
      h.exists_insertions (.inl rfl) hlt id 0 hlimit
    have hcall : Call (constantHash .map .fast false) t (.setMaxLoadFactor (.finite (3 / 4)))
        (.void, t.count) (t.setMaxLoadFactor (.finite (3 / 4))) := ⟨0, rfl, rfl⟩
    refine ⟨s, _, _, hstart, hrun.snoc hcall, by simp [hops], ?_⟩
    have hsame : (t.setMaxLoadFactor (.finite (3 / 4))).count = t.count := rfl
    rw [setMaxLoadFactor_limit (htcap.trans hcap), hsame, htcount, hcount]
    decide

end Runs

end Core

end SimdHash
