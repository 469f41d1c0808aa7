import SimdHash.Reuse
import SimdHash.Selection

/-! Growing costs a bounded number of moves for each insertion, and leaves a
table that is not much larger than what has been inserted. -/

namespace SimdHash

open Transition

section Ladder

variable {mode : Mode} {capacity next : ℕ}

theorem parts_le (mode : Mode) {k : ℕ} (h31 : k ≤ 31) : mode.parts (2 ^ k) ≤ mode.parts maxSize := by
  cases mode <;> interval_cases k <;> decide

theorem two_pow_le_half {m j : ℕ} (h : 2 ^ m < 2 ^ j) : 2 ^ m ≤ 2 ^ j / 2 := by
  have hlt : m < j := (Nat.pow_lt_pow_iff_right (by decide)).mp h
  have hle : 2 ^ m * 2 ≤ 2 ^ j := by
    rw [← pow_succ]
    exact Nat.pow_le_pow_right (by decide) hlt
  omega

/-- No capacity of the ladder lies within a part. -/
theorem part_gap {j i : ℕ} (h24 : 24 < j) (h31 : j ≤ 31) (hi : i ≤ mode.parts (2 ^ j))
    (h : capacity ∈ ladder mode)
    (hlt : capacity < 2 ^ j / 2 + i * (2 ^ j / 2 / mode.parts (2 ^ j))) (hpos : 1 ≤ i) :
    capacity + 2 ^ j / 2 / mode.parts (2 ^ j) ≤
      2 ^ j / 2 + i * (2 ^ j / 2 / mode.parts (2 ^ j)) := by
  have htop := part_le h24 h31 hi
  have hone : 2 ^ j / 2 / mode.parts (2 ^ j) ≤ i * (2 ^ j / 2 / mode.parts (2 ^ j)) :=
    Nat.le_mul_of_pos_left _ hpos
  rcases h with ⟨m, -, -, rfl⟩ | ⟨m, i', hm24, hm31, hi'pos, hi', rfl⟩
  · have hhalf := two_pow_le_half (hlt.trans_le htop)
    omega
  · have hmtop := part_le hm24 hm31 hi'
    rcases lt_trichotomy m j with hmj | rfl | hmj
    · have hhalf := two_pow_le_half ((Nat.pow_lt_pow_iff_right (a := 2) (by decide)).mpr hmj)
      omega
    · have hii : i' < i := Nat.lt_of_mul_lt_mul_right (Nat.lt_of_add_lt_add_left hlt)
      have hnext := Nat.mul_le_mul_right (2 ^ m / 2 / mode.parts (2 ^ m)) (Nat.succ_le_of_lt hii)
      rw [Nat.succ_mul] at hnext
      omega
    · have hhalf := two_pow_le_half ((Nat.pow_lt_pow_iff_right (a := 2) (by decide)).mpr hmj)
      omega

/-- A capacity of the ladder is larger than the one before it by a part, of
which twice as many as the mode makes are no less. -/
theorem ladder_step (h : capacity ∈ ladder mode) (h' : next ∈ ladder mode) (hlt : capacity < next) :
    next ≤ 2 * mode.parts maxSize * (next - capacity) := by
  have hpart {j i : ℕ} (h24 : 24 < j) (h31 : j ≤ 31) (hpos : 1 ≤ i) (hi : i ≤ mode.parts (2 ^ j))
      (hnext : next = 2 ^ j / 2 + i * (2 ^ j / 2 / mode.parts (2 ^ j))) :
      next ≤ 2 * mode.parts maxSize * (next - capacity) := by
    have hgap := part_gap h24 h31 hi h (hnext ▸ hlt) hpos
    have htop := part_le h24 h31 hi
    have heven : 2 ∣ 2 ^ j := dvd_pow_self 2 (by omega)
    calc next ≤ 2 * (2 ^ j / 2) := by omega
      _ = 2 * (mode.parts (2 ^ j) * (2 ^ j / 2 / mode.parts (2 ^ j))) := by
        rw [Nat.mul_div_cancel' (parts_dvd h24 h31)]
      _ ≤ 2 * (mode.parts maxSize * (next - capacity)) :=
        Nat.mul_le_mul_left 2 (Nat.mul_le_mul (parts_le mode h31) (by omega))
      _ = 2 * mode.parts maxSize * (next - capacity) := by ring
  rcases h' with ⟨j, -, h31, rfl⟩ | ⟨j, i, h24, h31, hpos, hi, rfl⟩
  · by_cases h24 : 24 < j
    · have heven : 2 ∣ 2 ^ j := dvd_pow_self 2 (by omega)
      have hmul : mode.parts (2 ^ j) * (2 ^ j / 2 / mode.parts (2 ^ j)) = 2 ^ j / 2 :=
        Nat.mul_div_cancel' (parts_dvd h24 h31)
      have hpos : 0 < 2 ^ j / 2 := by
        have := Nat.pow_le_pow_right (n := 2) (by decide) h24
        omega
      exact hpart h24 h31 (Nat.pos_of_dvd_of_pos (parts_dvd h24 h31) hpos) le_rfl (by omega)
    · have hhalf : capacity ≤ 2 ^ j / 2 := by
        rcases h with ⟨m, -, -, rfl⟩ | ⟨m, i, hm24, -, -, -, rfl⟩
        · exact two_pow_le_half hlt
        · have hm : 2 ^ (j + 1) ≤ 2 ^ m := Nat.pow_le_pow_right (by decide) (by omega)
          rw [pow_succ] at hm
          omega
      have hone : 1 ≤ mode.parts maxSize := by cases mode <;> decide
      calc 2 ^ j ≤ 2 * (2 ^ j - capacity) := by omega
        _ ≤ 2 * mode.parts maxSize * (2 ^ j - capacity) :=
          Nat.mul_le_mul_right _ (Nat.mul_le_mul_left 2 hone)
  · exact hpart h24 h31 hpos hi rfl

/-- Below 16M slots there are only the powers of two. -/
theorem ladder_double (h : capacity ∈ ladder mode) (h' : next ∈ ladder mode) (hlt : capacity < next)
    (hsmall : capacity < 2 ^ 24) : 2 * capacity ≤ next := by
  have hbig {j : ℕ} (h24 : 24 < j) : 2 ^ 25 ≤ 2 ^ j := Nat.pow_le_pow_right (by decide) h24
  rcases h with ⟨m, -, -, rfl⟩ | ⟨m, i, h24, -, -, -, rfl⟩
  · rcases h' with ⟨j, -, -, rfl⟩ | ⟨j, i, h24, -, hpos, -, rfl⟩
    · have hhalf := two_pow_le_half hlt
      omega
    · have hhalf := two_pow_le_half hsmall
      have := hbig h24
      omega
  · have := hbig h24
    omega

end Ladder

section Limit

variable {mode : Mode} {capacity next : ℕ} {factor : ℚ}

theorem growthLimit_le_mul (hfactor : 0 ≤ factor) (hlt : capacity < maxSize) :
    (growthLimit capacity factor : ℚ) ≤ capacity * factor := by
  rw [growthLimit, if_pos hlt]
  exact Nat.floor_le (by positivity)

theorem mul_sub_one_le_growthLimit (hone : factor ≤ 1) (hmax : capacity ≤ maxSize) :
    capacity * factor - 1 ≤ (growthLimit capacity factor : ℚ) := by
  rw [growthLimit]
  split_ifs with hlt
  · exact (Nat.sub_one_lt_floor _).le
  · obtain rfl : capacity = maxSize := by omega
    have hpos : (0 : ℚ) ≤ maxSize := by positivity
    nlinarith

theorem growthLimit_double (h : 2 * capacity ≤ next) (hpos : 0 < capacity) (hmax : next ≤ maxSize)
    (hfactor : 0 ≤ factor) (hone : factor ≤ 1) :
    2 * growthLimit capacity factor ≤ growthLimit next factor := by
  have hold := growthLimit_le_mul hfactor (show capacity < maxSize by omega)
  have hnext : 2 * (capacity : ℚ) ≤ next := by exact_mod_cast h
  have hmul : 2 * (capacity * factor) ≤ next * factor := by
    rw [← mul_assoc]
    exact mul_le_mul_of_nonneg_right hnext hfactor
  have hcast : ((2 * growthLimit capacity factor : ℕ) : ℚ) ≤ next * factor := by
    push_cast
    linarith
  by_cases hlt : next < maxSize
  · rw [growthLimit.eq_def next, if_pos hlt]
    exact Nat.le_floor hcast
  · rw [growthLimit.eq_def next, if_neg hlt]
    have hle : next * factor ≤ next := mul_le_of_le_one_right (by positivity) hone
    have hall : ((2 * growthLimit capacity factor : ℕ) : ℚ) ≤ (next : ℚ) := hcast.trans hle
    exact (Nat.cast_le.mp hall).trans hmax

/-- The entries that growing moves for each entry inserted. -/
def Mode.moves (mode : Mode) : ℕ :=
  if mode.parts maxSize = 1 then 2 else 2 * mode.parts maxSize + 1

theorem Mode.two_le_moves (mode : Mode) : 2 ≤ mode.moves := by cases mode <;> decide

/-- Between a growth and the next one, there is an insertion for each of the
entries that the next one moves, at `Mode.moves` for each insertion. -/
theorem growthLimit_step (h : capacity ∈ ladder mode) (h' : next ∈ ladder mode)
    (hlt : capacity < next) (hpos : 0 < capacity) (hmax : next ≤ maxSize)
    (hmin : LoadFactor.min ≤ factor) (hle : factor ≤ LoadFactor.max) :
    mode.moves * growthLimit capacity factor ≤ (mode.moves - 1) * growthLimit next factor := by
  have hfactor : 3 / 4 ≤ factor := by
    norm_num [LoadFactor.min] at hmin
    exact hmin
  have hone : factor ≤ 1 := hle.trans (by norm_num [LoadFactor.max])
  have hdouble (hd : 2 * capacity ≤ next) :
      mode.moves * growthLimit capacity factor ≤ (mode.moves - 1) * growthLimit next factor := by
    have htwo := mode.two_le_moves
    calc mode.moves * growthLimit capacity factor
        ≤ (mode.moves - 1) * 2 * growthLimit capacity factor := Nat.mul_le_mul_right _ (by omega)
      _ = (mode.moves - 1) * (2 * growthLimit capacity factor) := mul_assoc _ _ _
      _ ≤ (mode.moves - 1) * growthLimit next factor :=
        Nat.mul_le_mul_left _ (growthLimit_double hd hpos hmax (by linarith) hone)
  have hstep := ladder_step h h' hlt
  by_cases hparts : mode.parts maxSize = 1
  · rw [hparts] at hstep
    exact hdouble (by omega)
  by_cases hsmall : capacity < 2 ^ 24
  · exact hdouble (ladder_double h h' hlt hsmall)
  rw [Mode.moves, if_neg hparts, Nat.add_sub_cancel]
  have hparts' : mode.parts maxSize ≤ 128 := by cases mode <;> decide
  have hold : (growthLimit capacity factor : ℚ) ≤ capacity * factor :=
    growthLimit_le_mul (by linarith) (by omega)
  have hnew : next * factor - 1 ≤ (growthLimit next factor : ℚ) :=
    mul_sub_one_le_growthLimit hone hmax
  have hpositive : 1 ≤ mode.parts maxSize := by cases mode <;> decide
  generalize mode.parts maxSize = parts at hstep hparts' hpositive
  have hlarge : (2 ^ 24 : ℚ) * (3 / 4) ≤ capacity * factor := by
    have hcapacity : (2 ^ 24 : ℚ) ≤ capacity := by exact_mod_cast not_lt.mp hsmall
    exact mul_le_mul hcapacity hfactor (by norm_num) (by positivity)
  have hpart : (next : ℚ) * factor + 2 * parts * (capacity * factor) ≤
      2 * parts * (next * factor) := by
    have hnat : next + 2 * parts * capacity ≤ 2 * parts * next := by
      rw [Nat.mul_sub] at hstep
      have := Nat.mul_le_mul_left (2 * parts) hlt.le
      omega
    have hcast : (next : ℚ) + 2 * parts * capacity ≤ 2 * parts * next := by exact_mod_cast hnat
    nlinarith
  have hfew : (parts : ℚ) ≤ 128 := by exact_mod_cast hparts'
  have hsome : (1 : ℚ) ≤ parts := by exact_mod_cast hpositive
  have hgoal : ((2 * parts + 1 : ℕ) : ℚ) * growthLimit capacity factor ≤
      ((2 * parts : ℕ) : ℚ) * growthLimit next factor := by
    push_cast
    generalize (capacity : ℚ) * factor = x at *
    generalize (next : ℚ) * factor = y at *
    have hx : (2 * parts + 1 : ℚ) * growthLimit capacity factor ≤ (2 * parts + 1) * x :=
      mul_le_mul_of_nonneg_left hold (by positivity)
    have hy : (2 * parts : ℚ) * (y - 1) ≤ 2 * parts * growthLimit next factor :=
      mul_le_mul_of_nonneg_left hnew (by positivity)
    refine hx.trans (le_trans ?_ hy)
    by_contra hlt
    have hscaled := mul_lt_mul_of_pos_left (not_le.mp hlt) (show (0 : ℚ) < 2 * parts - 1 by linarith)
    have hratio : (2 * parts : ℚ) * (2 * parts * x) ≤ 2 * parts * ((2 * parts - 1) * y) :=
      mul_le_mul_of_nonneg_left (by linarith) (by positivity)
    have hsquare : (parts : ℚ) * parts ≤ 128 * 128 := mul_le_mul hfew hfew (by positivity) (by norm_num)
    linarith
  exact_mod_cast hgoal

end Limit

section Calls

variable {K V : Type} {t : ContainerType}

/-- The calls that leave the size of the table to growth. -/
def Op.LeavesSize : Op K V t → Prop
  | .resize _ => False
  | .clear size => size = 0
  | .setMaxLoadFactor _ => False
  | _ => True

def Op.added : Op K V t → Result V → ℕ
  | .add _ _ _, .bool true => 1
  | .addOrUpdate _ _ _, .bool true => 1
  | .tryAdd _ _ _, .added true _ => 1
  | _, _ => 0

def insertions (trace : List (Op K V t × Result V × ℕ)) : ℕ :=
  (trace.map fun call => call.1.added call.2.1).sum

end Calls

namespace Core

variable {K V : Type} {c : Template K} {s t : Core K V}

/-- The entries that a call has put into a larger table. -/
def moved (s t : Core K V) : ℕ := if t.capacity = s.capacity then 0 else t.count

theorem adjustCapacity_succ_le {mode : Mode} {capacity : ℕ} (hr : mode ≠ .resizeOnlyEmpty)
    (h : IsCapacity capacity) (hlt : capacity < maxSize) :
    adjustCapacity mode (capacity + 1) ≤ 2 * capacity + 1 := by
  obtain ⟨k, h31, -, hle, hdouble⟩ := roundUpToPowerOf2_spec (Nat.succ_pos capacity) hlt
  have h12 : 12 < k := by
    have hpow : 2 ^ 12 < 2 ^ k := (Nat.lt_succ_of_le h.min_le).trans_le hle
    exact (Nat.pow_lt_pow_iff_right (by decide)).mp hpow
  have hmax : capacity + 1 ≤ maxSize := hlt
  have hleast := (adjustCapacity_isLeast hr hmax).2 ⟨.inl ⟨k, h12.le, h31, rfl⟩, hle⟩
  omega

theorem adjustCapacity_mem_ladder {mode : Mode} (hr : mode ≠ .resizeOnlyEmpty) (size : ℕ) :
    adjustCapacity mode size ∈ ladder mode := by
  by_cases hge : maxSize ≤ size
  · rw [adjustCapacity_of_ge hge]
    exact .inl ⟨31, by decide, le_rfl, rfl⟩
  · exact (adjustCapacity_isLeast hr (not_le.mp hge).le).1.1

/-- A growth, entered when the count came to the limit. -/
structure Grew (c : Template K) (s t : Core K V) : Prop where
  lt_max : s.capacity < maxSize
  count : t.count = s.count + 1
  limit : s.count + 1 = s.countGrowthLimit
  lt : s.capacity < t.capacity
  capacity : t.capacity = adjustCapacity c.mode (s.capacity + 1)

theorem Inserted.kept_or_grew (h : s.Inv c) {i : ℕ} {key : K} {value : V}
    (ht : Inserted c s i key value t) :
    t.capacity = s.capacity ∧ t.count = s.count + 1 ∨ Grew c s t := by
  have hcap := ht.capacity
  by_cases hlimit : s.count + 1 = s.countGrowthLimit
  · rw [if_pos hlimit] at hcap
    by_cases hlt : s.capacity < maxSize
    · have hgrow : s.capacity + 1 ≤ adjustCapacity c.mode (s.capacity + 1) :=
        le_adjustCapacity c.mode hlt
      rw [max_eq_right (by omega)] at hcap
      exact .inr ⟨hlt, ht.count, hlimit, by omega, hcap⟩
    · have hmax := h.geometry.isCapacity.le_max
      have hfull : s.capacity = maxSize := by omega
      rw [adjustCapacity_of_ge (by omega), hfull, max_self] at hcap
      exact .inl ⟨hcap.trans hfull.symm, ht.count⟩
  · rw [if_neg hlimit] at hcap
    exact .inl ⟨hcap, ht.count⟩

variable [DecidableEq K]

/-- A call that does not set the size grows the table or keeps it. -/
theorem Call.kept_or_grew (h : s.Inv c) {op : Op K V c.type} {out : Result V × ℕ}
    (hcall : Call c s op out t) (hop : op.LeavesSize) :
    t.maxLoadFactor = s.maxLoadFactor ∧
      (t.capacity = s.capacity ∧ t.count ≤ s.count + op.added out.1 ∨
        op.added out.1 = 1 ∧ Grew c s t) := by
  have hadded {bUnique bUpdate b : Bool} {key : K} {value : V} {index : ℕ}
      (hr : Added c s bUnique bUpdate key value ((b, index), t)) :
      t.maxLoadFactor = s.maxLoadFactor ∧
        (t.capacity = s.capacity ∧ t.count ≤ s.count + b.toNat ∨ b.toNat = 1 ∧ Grew c s t) := by
    cases hr with
    | inserted hslot ht =>
      refine ⟨ht.factor, ?_⟩
      rcases ht.kept_or_grew h with hkept | hgrew
      · exact .inl ⟨hkept.1, hkept.2.le⟩
      · exact .inr ⟨rfl, hgrew⟩
    | found hchecked hslot hlive hkey =>
      split_ifs
      · exact ⟨rfl, .inl ⟨rfl, le_rfl⟩⟩
      · exact ⟨rfl, .inl ⟨rfl, le_rfl⟩⟩
  have hsame {n : ℕ} : s.maxLoadFactor = s.maxLoadFactor ∧
      (s.capacity = s.capacity ∧ s.count ≤ s.count + n ∨ n = 1 ∧ Grew c s s) :=
    ⟨rfl, .inl ⟨rfl, Nat.le_add_right _ _⟩⟩
  obtain ⟨hout, -⟩ := hcall.outcome h
  obtain ⟨ret, count⟩ := out
  cases hout with
  | @add _ _ _ b _ _ hr => cases b <;> exact hadded hr
  | @addOrUpdate _ _ _ b _ _ hr => cases b <;> exact hadded hr
  | @tryAdd _ _ _ b _ _ hr => cases b <;> exact hadded hr
  | remove hr =>
    cases hr with
    | removed hmet hlive hkey => exact ⟨rfl, .inl ⟨rfl, (Nat.sub_le _ _).trans (Nat.le_add_right _ _)⟩⟩
    | absent hunmet => exact hsame
  | contains hr => exact hsame
  | foundValue hmet hlive hkey => exact hsame
  | noValue hunmet => exact hsame
  | tryGetIndex hr => exact hsame
  | resize hr => exact hop.elim
  | rehash hr =>
    have hcap := hr.capacity
    rw [adjustCapacity_of_le (Nat.zero_le _), max_eq_left h.geometry.isCapacity.min_le] at hcap
    exact ⟨hr.factor, .inl ⟨hcap, hr.count.le.trans (Nat.le_add_right _ _)⟩⟩
  | clear hinv hcount hclean hfactor hcap =>
    exact ⟨hfactor, .inl ⟨hcap hop, hcount.le.trans (Nat.zero_le _)⟩⟩
  | setMaxLoadFactor => exact hop.elim

/-- What `Mode.moves` for each entry has saved up for the next growth. -/
def potential (c : Template K) (s : Core K V) : ℕ :=
  c.mode.moves * s.count - (c.mode.moves - 1) * s.countGrowthLimit

theorem Grew.moved_le (hgrew : Grew c s t) (hr : c.mode ≠ .resizeOnlyEmpty) (hs : Reachable c s)
    (ht : t.Inv c) (hfactor : t.maxLoadFactor = s.maxLoadFactor) :
    moved s t + potential c t ≤ potential c s + c.mode.moves := by
  have h := hs.inv
  obtain ⟨size, hsize⟩ := hs.capacity_eq
  have hmem : s.capacity ∈ ladder c.mode := hsize ▸ adjustCapacity_mem_ladder hr size
  have hmem' : t.capacity ∈ ladder c.mode := hgrew.capacity ▸ adjustCapacity_mem_ladder hr _
  have hstep := growthLimit_step hmem hmem' hgrew.lt h.geometry.capacity_pos
    ht.geometry.isCapacity.le_max h.factor_min h.factor_max
  have hlimit : growthLimit s.capacity s.maxLoadFactor = s.count + 1 := by
    rw [← h.limit_eq, hgrew.limit]
  have hlimit' : growthLimit t.capacity s.maxLoadFactor = t.countGrowthLimit := by
    rw [ht.limit_eq, hfactor]
  rw [hlimit, hlimit'] at hstep
  rw [moved, if_neg hgrew.lt.ne', potential, potential, hgrew.count, ← hgrew.limit,
    Nat.sub_eq_zero_of_le hstep]
  obtain ⟨k, hk⟩ : ∃ k, c.mode.moves = k + 1 := ⟨c.mode.moves - 1, by have := c.mode.two_le_moves; omega⟩
  rw [hk, Nat.add_sub_cancel, Nat.add_mul, Nat.mul_add]
  omega

theorem Call.amortised (hr : c.mode ≠ .resizeOnlyEmpty) (hs : Reachable c s)
    {op : Op K V c.type} {out : Result V × ℕ} (hcall : Call c s op out t) (hop : op.LeavesSize) :
    moved s t + potential c t ≤ potential c s + c.mode.moves * op.added out.1 := by
  have h := hs.inv
  have ht := hcall.inv h
  obtain ⟨hfactor, ⟨hcap, hcount⟩ | ⟨hadded, hgrew⟩⟩ := hcall.kept_or_grew h hop
  · have hlimit : t.countGrowthLimit = s.countGrowthLimit := by
      rw [ht.limit_eq, h.limit_eq, hcap, hfactor]
    have hmul := Nat.mul_le_mul_left c.mode.moves hcount
    rw [Nat.mul_add] at hmul
    rw [moved, if_pos hcap, potential, potential, hlimit]
    omega
  · rw [hadded, Nat.mul_one]
    exact hgrew.moved_le hr hs ht hfactor

theorem Call.capacity_le (hr : c.mode ≠ .resizeOnlyEmpty) (h : s.Inv c) {op : Op K V c.type}
    {out : Result V × ℕ} (hcall : Call c s op out t) (hop : op.LeavesSize) {n : ℕ}
    (hcount : s.count ≤ n) (hcap : s.capacity ≤ max minSize (3 * n)) :
    t.count ≤ n + op.added out.1 ∧ t.capacity ≤ max minSize (3 * (n + op.added out.1)) := by
  obtain ⟨-, hkept | ⟨hadded, hgrew⟩⟩ := hcall.kept_or_grew h hop
  · exact ⟨by omega, by omega⟩
  · have hnext := adjustCapacity_succ_le hr h.geometry.isCapacity hgrew.lt_max
    have hlimit := le_growthLimit h.factor_min hgrew.lt_max
    have hmin : 4096 ≤ s.capacity := h.geometry.isCapacity.min_le
    rw [← h.limit_eq, ← hgrew.limit] at hlimit
    rw [← hgrew.capacity] at hnext
    have := hgrew.count
    exact ⟨by omega, by omega⟩

theorem Run.capacity_le (hr : c.mode ≠ .resizeOnlyEmpty)
    {trace : List (Op K V c.type × Result V × ℕ)}
    (hrun : Run (guard (fun _ op => op.LeavesSize) (Call c)) s trace t) (h : s.Inv c) {n : ℕ}
    (hcount : s.count ≤ n) (hcap : s.capacity ≤ max minSize (3 * n)) :
    t.capacity ≤ max minSize (3 * (n + insertions trace)) := by
  induction hrun generalizing n with
  | nil => exact hcap
  | cons hcall _ ih =>
    obtain ⟨hop, hcall⟩ := hcall
    obtain ⟨hcount', hcap'⟩ := hcall.capacity_le hr h hop hcount hcap
    have hrest := ih (hcall.inv h) hcount' hcap'
    rwa [Nat.add_assoc] at hrest

/-- Growing takes time linear in what is inserted, and leaves a table of linear
size, in every run that leaves sizing to growth. -/
theorem growth_amortised (hr : c.mode ≠ .resizeOnlyEmpty) {start : Core K V} {n : ℕ}
    {trace : List (Op K V c.type × Result V × ℕ)} (hstart : Constructed c start)
    (hrun : Spends (guard (fun _ op => op.LeavesSize) (Call c)) moved start trace n t) :
    n ≤ c.mode.moves * insertions trace ∧ t.capacity ≤ max minSize (3 * insertions trace) := by
  obtain ⟨h, hcount, -, hcap, -⟩ := hstart.start
  constructor
  · have hpaid : n + potential c t ≤ potential c start +
        (trace.map fun call => c.mode.moves * call.1.added call.2.1).sum := by
      refine hrun.amortised (I := Reachable c) ?_ ⟨start, [], hstart, .nil start⟩
      intro s op out t hs hcall
      exact ⟨hs.call hcall.2, hcall.2.amortised hr hs hcall.1⟩
    have hzero : potential c start = 0 := by rw [potential, hcount, Nat.mul_zero, Nat.zero_sub]
    rw [List.sum_map_mul_left, hzero] at hpaid
    rw [insertions]
    omega
  · have hsize := Run.capacity_le hr hrun.run h hcount.le (hcap.le.trans (le_max_left _ _))
    rwa [Nat.zero_add] at hsize

/-- 4000 entries are moved into 8192 slots. -/
theorem growth_amortised_first : ∃ (start t : Core ℕ ℕ)
    (trace : List (Op ℕ ℕ .map × Result ℕ × ℕ)) (n : ℕ),
    Constructed (constantHash .map .fast false) start ∧
    Spends (guard (fun _ op => op.LeavesSize) (Call (constantHash .map .fast false))) moved
      start trace n t ∧
    trace.length = 4000 ∧ 4096 < t.capacity ∧ n ≤ 2 * insertions trace := by
  obtain ⟨start, hstart⟩ := exists_constructed (constantHash .map .fast false) zeroedMemory
  obtain ⟨h, hcount, -, hcap, hfactor⟩ := hstart.start
  have hlt : start.capacity < maxSize := by
    rw [hcap]
    decide
  have hlimit : start.countGrowthLimit = 4000 := by
    rw [h.limit_eq, hcap, hfactor]
    decide +kernel
  obtain ⟨trace, s, hrun, hops, hs, hscount, hscap, hsfactor⟩ :=
    h.exists_insertions (n := 3999) (.inl rfl) hlt id 0 (by omega)
  have hslimit : s.countGrowthLimit = 4000 := by rw [hs.limit_eq, hscap, hsfactor, ← h.limit_eq, hlimit]
  obtain ⟨r, hadd, hr⟩ := hs.add_returns (.inl rfl) (hscap ▸ hlt) (fun _ => by omega) le_rfl
    true false 3999 0
  cases hr with
  | found hchecked => cases hchecked
  | @inserted i t hslot ht =>
    have hcall : Call (constantHash .map .fast false) s (.add true 3999 0) (.bool true, t.count) t :=
      ⟨maxSize, by simp [step, hadd], rfl⟩
    have hadds : ∀ call ∈ trace ++ [(.add true 3999 0, .bool true, t.count)], call.1.LeavesSize := by
      intro call hmem
      rcases List.mem_append.mp hmem with hmem | hmem
      · have hop := List.mem_map_of_mem (f := Prod.fst) hmem
        rw [hops, List.mem_map] at hop
        obtain ⟨k, -, hk⟩ := hop
        rw [← hk]
        trivial
      · rw [List.mem_singleton.mp hmem]
        trivial
    obtain ⟨n, hn⟩ := ((hrun.snoc hcall).guard_of fun call hmem _ => hadds call hmem).exists_spends
    have hgrows := ht.grows hs (hscap ▸ hlt) (by omega)
    have hlength := congrArg List.length hops
    simp only [List.length_map, List.length_range] at hlength
    refine ⟨start, t, _, n, hstart, hn, by simp [hlength], ?_, (growth_amortised (by decide) hstart hn).1⟩
    show minSize < t.capacity
    rw [← hcap, ← hscap]
    exact hgrows.1

end Core

end SimdHash
