import SimdHash.Dictionary
import SimdHash.Limits

/-! Which capacities let every insertion below the growth limit end. Where the
number of pages has a factor 3 or 5, the probe of a key comes to at most two
thirds of the table, and keys that share their hash fill these before the limit
is reached. -/

namespace SimdHash

open OpenAddressing TagVector Transition WrappedTriangle

namespace Core

variable {K V : Type} {c : Template K} {s t : Core K V} {key : K}

/-- The calls of a client that sets the container up while it is empty, and
then adds absent keys, keeping the count below the growth limit. -/
def InsertOnly (c : Template K) (s : Core K V) : Op K V c.type → Prop
  | .resize _ => s.count = 0
  | .setMaxLoadFactor _ => s.count = 0
  | .add _ key _ => ¬ HasKey c s key ∧ s.count + 1 < s.countGrowthLimit
  | _ => False

/-- Every such insertion into `s` ends. -/
def InsertionEnds [DecidableEq K] (c : Template K) (s : Core K V) : Prop :=
  ∀ bUnique key value, ¬ HasKey c s key → s.count + 1 < s.countGrowthLimit →
    ∃ fuel r, s.add c fuel bUnique false key value = .ok r

/-- Every such insertion ends, whatever the keys and their hashes, in a
container of this mode and capacity that was filled in this way. -/
def InsertionsEnd (mode : Mode) (capacity : ℕ) : Prop :=
  ∀ (K V : Type) [DecidableEq K] (c : Template K) (start s : Core K V)
    (trace : List (Op K V c.type × Result V × ℕ)), c.mode = mode → Constructed c start →
    Run (guard (InsertOnly c) (Call c)) start trace s → s.capacity = capacity → InsertionEnds c s

section Probes

theorem hasKey_iff : HasKey c s key ↔ ∃ e ∈ s.entriesHeld c, e.key = key :=
  exists_entriesHeld.symm

theorem Inserted.hasKey {i : ℕ} {value : V} (h : Inserted c s i key value t) {k : K} :
    HasKey c t k ↔ k = key ∨ HasKey c s k := by
  obtain ⟨e, rfl, -, hheld⟩ := h.held
  rw [hasKey_iff, hasKey_iff, hheld]
  simp [eq_comm]

variable [DecidableEq K]

theorem Inv.add_returns_of_free (h : s.Inv c) (hlimit : s.count + 1 ≠ s.countGrowthLimit)
    (hfree : ∃ n, HasFree (s.slots c) (s.windows c (c.hasher key) n)) (bUnique bUpdate : Bool)
    (value : V) : ∃ fuel r, s.add c fuel bUnique bUpdate key value = .ok r ∧
      Added c s bUnique bUpdate key value r := by
  obtain ⟨n, hn⟩ := hfree
  have hrun : Exec.Ensures (s.add c (2 ^ 16 + n) bUnique bUpdate key value) _ _ := h.add_ensures
  obtain ⟨r, hr⟩ := hrun.returns (by
    intro e he
    rcases he with ⟨-, hsmall | hall⟩ | ⟨hgrow, -⟩
    · omega
    · exact hall n (by omega) hn
    · exact hlimit hgrow)
  exact ⟨2 ^ 16 + n, r, hr⟩

theorem Inv.hasFree_of_add (h : s.Inv c) (habsent : ¬ HasKey c s key) {fuel : ℕ}
    {bUnique bUpdate : Bool} {value : V} {r : (Bool × ℕ) × Core K V}
    (hadd : s.add c fuel bUnique bUpdate key value = .ok r) :
    ∃ n, HasFree (s.slots c) (s.windows c (c.hasher key) n) := by
  cases h.add_ensures.value hadd with
  | inserted hslot ht =>
    obtain ⟨n, -, hmem, hfree, -⟩ := hslot
    exact ⟨n, _, hmem, hfree⟩
  | found hchecked hslot hlive hkey => exact absurd ⟨_, _, hlive, hkey⟩ habsent

end Probes

section Gaps

/-- Where all hashes are zero and the number of pages has a factor 3 or 5, all
entries are in two thirds of the table. -/
theorem Inv.count_le_of_zero (h : s.Inv c) (hhash : ∀ key, c.hasher key = 0)
    (hco : ¬ Nat.Coprime 15 (s.capacity / pageSize)) : 3 * s.count ≤ 2 * s.capacity := by
  classical
  obtain ⟨pages, hpages⟩ := h.geometry.isCapacity.page
  rw [hpages, Nat.mul_div_cancel_left _ (by decide)] at hco
  have hhome : s.adjustTupleIndex c (0 : UInt64).toNat = 0 := by
    rw [h.geometry.adjust_eq_mod (by decide)]
    exact Nat.zero_mod _
  have hbound {d m : ℕ} (hd : d ∣ 120) (hm : s.capacity = 16 * (d * m)) : s.count ≤ 256 * m := by
    rw [h.count_eq, entriesHeld, card_content]
    refine card_le_of_drift hd fun i hi => ?_
    obtain ⟨hmem, e, hlive⟩ := Finset.mem_filter.mp hi
    have hlt : i < s.capacity := h.size_eq ▸ Finset.mem_range.mp hmem
    obtain ⟨n, hn, -⟩ := h.chained i e hlive
    simp only [hhash] at hn
    have hdvd : d ∣ s.capacity / 16 := by
      rw [hm, Nat.mul_div_cancel_left _ (by decide)]
      exact Nat.dvd_mul_right d m
    exact ⟨hm ▸ hlt, n, h.geometry.group_eq hhome hdvd hn⟩
  have hfactor : 3 ∣ pages ∨ 5 ∣ pages := by
    rw [show 15 = 3 * 5 from rfl, Nat.coprime_mul_iff_left, not_and_or] at hco
    rcases hco with hthree | hfive
    · exact .inl ((Nat.Prime.dvd_iff_not_coprime Nat.prime_three).mpr hthree)
    · exact .inr ((Nat.Prime.dvd_iff_not_coprime Nat.prime_five).mpr hfive)
  rcases hfactor with ⟨part, hpart⟩ | ⟨part, hpart⟩
  · have hcap : s.capacity = 16 * (24 * (32 * part)) := by
      rw [hpages, hpart, pageSize]
      ring
    have := hbound (by decide) hcap
    omega
  · have hcap : s.capacity = 16 * (40 * (32 * part)) := by
      rw [hpages, hpart, pageSize]
      ring
    have := hbound (by decide) hcap
    omega

variable {start : Core ℕ ℕ} {mode : Mode}

theorem Inv.exists_fill (h : start.Inv (constantHash .map mode false)) (hcount : start.count = 0)
    (hfree : ∀ n trace s, Run (guard (InsertOnly _) (Call (constantHash .map mode false)))
      start trace s → trace.map Prod.fst = (List.range n).map (fun k => .add true k 0) →
      s.count + 1 < s.countGrowthLimit → s.capacity = start.capacity →
      (∀ k, HasKey (constantHash .map mode false) s k → k < n) →
      ∃ m, HasFree (s.slots (constantHash .map mode false))
        (s.windows (constantHash .map mode false) 0 m)) {n : ℕ}
    (hn : n < start.countGrowthLimit) :
    ∃ trace s, Run (guard (InsertOnly _) (Call (constantHash .map mode false))) start trace s ∧
      trace.map Prod.fst = (List.range n).map (fun k => .add true k 0) ∧
      s.Inv (constantHash .map mode false) ∧ s.count = n ∧ s.capacity = start.capacity ∧
      s.maxLoadFactor = start.maxLoadFactor ∧
      ∀ k, HasKey (constantHash .map mode false) s k → k < n := by
  induction n with
  | zero =>
    refine ⟨[], start, .nil start, rfl, h, hcount, rfl, rfl, fun k hk => ?_⟩
    obtain ⟨i, e, hlive, -⟩ := hk
    exact absurd hlive (h.not_live_of_count hcount i e)
  | succ n ih =>
    obtain ⟨trace, s, hrun, hops, hs, hscount, hcap, hfactor, hkeys⟩ := ih (by omega)
    have hlimit : s.countGrowthLimit = start.countGrowthLimit := by
      rw [hs.limit_eq, h.limit_eq, hcap, hfactor]
    have habsent : ¬ HasKey (constantHash .map mode false) s n := fun hk => (hkeys n hk).false
    have hspace := hfree n trace s hrun hops (by omega) hcap hkeys
    obtain ⟨fuel, r, hadd, hr⟩ := @Inv.add_returns_of_free _ _ _ s n _ hs (by omega) hspace true false 0
    cases hr with
    | @inserted i t hslot ht =>
      have hcall : Call (constantHash .map mode false) s (.add true n 0) (.bool true, t.count) t :=
        ⟨fuel, by simp [step, hadd], rfl⟩
      have hop : InsertOnly (constantHash .map mode false) s (.add true n 0) :=
        ⟨habsent, by omega⟩
      refine ⟨_, t, hrun.snoc ⟨hop, hcall⟩, ?_, ht.toInv, ?_, ?_, ht.factor.trans hfactor, ?_⟩
      · rw [List.map_append, hops, List.range_succ, List.map_append]
        rfl
      · rw [ht.count, hscount]
      · rw [ht.capacity, if_neg (by omega), hcap]
      · intro k hk
        rcases ht.hasKey.mp hk with rfl | hk
        · exact Nat.lt_succ_self k
        · exact Nat.lt_succ_of_lt (hkeys k hk)
    | found hchecked => cases hchecked

theorem Inv.exists_stuck (h : start.Inv (constantHash .map mode false)) (hcount : start.count = 0)
    (hlt : start.capacity < maxSize) (hco : ¬ Nat.Coprime 15 (start.capacity / pageSize)) :
    ∃ n trace s, Run (guard (InsertOnly _) (Call (constantHash .map mode false))) start trace s ∧
      trace.map Prod.fst = (List.range n).map (fun k => .add true k 0) ∧
      s.Inv (constantHash .map mode false) ∧ s.count + 1 < s.countGrowthLimit ∧
      s.capacity = start.capacity ∧
      ¬ HasKey (constantHash .map mode false) s n ∧
      ∀ bUnique fuel value r,
        s.add (constantHash .map mode false) fuel bUnique false n value ≠ .ok r := by
  by_contra hno
  have hle := le_growthLimit h.factor_min hlt
  have hmin : 4096 ≤ start.capacity := h.geometry.isCapacity.min_le
  rw [← h.limit_eq] at hle
  have hlast : start.countGrowthLimit - 1 < start.countGrowthLimit := by omega
  obtain ⟨trace, s, hrun, hops, hs, hscount, hcap, -⟩ := h.exists_fill hcount (by
    intro n trace s hrun hops hbelow hcap hkeys
    by_contra hfull
    have hs : s.Inv (constantHash .map mode false) :=
      hrun.invariant (fun _ _ _ _ hinv hcall => hcall.2.inv hinv) h
    have habsent : ¬ HasKey (constantHash .map mode false) s n := fun hk => (hkeys n hk).false
    refine hno ⟨n, trace, s, hrun, hops, hs, hbelow, hcap, habsent, ?_⟩
    intro bUnique fuel value r hadd
    exact hfull (hs.hasFree_of_add habsent hadd)) hlast
  have hbound := hs.count_le_of_zero (fun _ => rfl) (hcap ▸ hco)
  omega

end Gaps

section Claims

theorem exists_stuck_run {mode : Mode} {size : ℕ} (hlt : adjustCapacity mode size < maxSize)
    (hco : ¬ Nat.Coprime 15 (adjustCapacity mode size / pageSize)) :
    ∃ n trace, ∃ start s : Core ℕ ℕ, Constructed (constantHash .map mode false) start ∧
      Run (guard (InsertOnly _) (Call (constantHash .map mode false))) start trace s ∧
      trace.map Prod.fst = .resize size :: (List.range n).map (fun k => .add true k 0) ∧
      s.capacity = adjustCapacity mode size ∧ s.count + 1 < s.countGrowthLimit ∧
      ¬ HasKey (constantHash .map mode false) s n ∧
      ∀ bUnique fuel value r,
        s.add (constantHash .map mode false) fuel bUnique false n value ≠ .ok r := by
  obtain ⟨start, hstart⟩ := exists_constructed (constantHash .map mode false) zeroedMemory
  obtain ⟨h, hcount, -, hcap, -⟩ := hstart.start
  have hresize : Exec.Ensures (start.resize (constantHash .map mode false) 0 size) _ _ :=
    h.resize_ensures size
  obtain ⟨s₀, hs₀, hr⟩ := hresize.returns fun e he => he.1 hcount
  have hcap₀ : s₀.capacity = adjustCapacity mode size := by
    rw [hr.capacity, hcap]
    exact max_eq_right (adjustCapacity_isCapacity mode size).min_le
  obtain ⟨n, trace, s, hrun, hops, -, hbelow, hscap, habsent, hstuck⟩ :=
    hr.toInv.exists_stuck (hr.count.trans hcount) (hcap₀ ▸ hlt) (hcap₀ ▸ hco)
  have hcall : Call (constantHash .map mode false) start (.resize size) (.void, s₀.count) s₀ :=
    ⟨0, by simp [step, hs₀], rfl⟩
  have hop : InsertOnly (constantHash .map mode false) start (.resize size) := hcount
  exact ⟨n, _, start, s, hstart, .cons ⟨hop, hcall⟩ hrun, by simp [hops], hscap.trans hcap₀,
    hbelow, habsent, hstuck⟩

/-- Below `MAX_SIZE` all insertions below the limit end, whatever the hashes,
exactly when the number of pages has no factor 3 or 5. -/
theorem insertionsEnd_iff {mode : Mode} {size : ℕ} (hlt : adjustCapacity mode size < maxSize) :
    InsertionsEnd mode (adjustCapacity mode size) ↔
      Nat.Coprime 15 (adjustCapacity mode size / pageSize) := by
  constructor
  · intro hends
    by_contra hco
    obtain ⟨n, trace, start, s, hstart, hrun, -, hcap, hbelow, habsent, hstuck⟩ :=
      exists_stuck_run hlt hco
    obtain ⟨fuel, r, hadd⟩ :=
      hends ℕ ℕ _ start s trace rfl hstart hrun hcap true n 0 habsent hbelow
    exact hstuck true fuel 0 r hadd
  · intro hco K V _ c start s trace hmode hstart hrun hcap bUnique key value habsent hbelow
    have h := hstart.run_inv hrun
    have hroom : Roomy s.capacity maxSize (s.count + 1) :=
      { coprime := hcap ▸ hco
        fuel := h.geometry.isCapacity.le_max
        slots := by
          have := h.limit_add_le (hcap ▸ hlt)
          omega }
    obtain ⟨n, -, hfree⟩ := h.geometry.hasFree h.size_eq hroom (t := s.slots c)
      (h.count_eq ▸ Nat.lt_succ_self s.count) (c.hasher key)
    obtain ⟨fuel, r, hadd, -⟩ := h.add_returns_of_free (by omega) ⟨n, hfree⟩ bUnique false value
    exact ⟨fuel, r, hadd⟩

/-- Seven pages, which only the memory-saving modes make. -/
theorem insertionsEnd_resizeOnlyEmpty : InsertionsEnd .resizeOnlyEmpty 28672 := by
  have hcap : adjustCapacity .resizeOnlyEmpty 28000 = 28672 := by decide +kernel
  have hends : InsertionsEnd .resizeOnlyEmpty (adjustCapacity .resizeOnlyEmpty 28000) :=
    (insertionsEnd_iff (by rw [hcap]; decide)).mpr (by rw [hcap]; decide)
  rwa [hcap] at hends

/-- In a table of three pages the insertion of some key never ends, though the
count is below the limit. -/
theorem insertion_never_ends : ∃ n trace, ∃ start s : Core ℕ ℕ,
    Constructed (constantHash .map .resizeOnlyEmpty false) start ∧
    Run (guard (InsertOnly _) (Call (constantHash .map .resizeOnlyEmpty false))) start trace s ∧
    trace.map Prod.fst = .resize 12000 :: (List.range n).map (fun k => .add true k 0) ∧
    s.capacity = 12288 ∧ s.count + 1 < s.countGrowthLimit ∧
    ¬ HasKey (constantHash .map .resizeOnlyEmpty false) s n ∧
    ∀ bUnique fuel value r,
      s.add (constantHash .map .resizeOnlyEmpty false) fuel bUnique false n value ≠ .ok r := by
  have hcap : adjustCapacity .resizeOnlyEmpty 12000 = 12288 := by decide +kernel
  have hlt : adjustCapacity .resizeOnlyEmpty 12000 < maxSize := by
    rw [hcap]
    decide
  have hco : ¬ Nat.Coprime 15 (adjustCapacity .resizeOnlyEmpty 12000 / pageSize) := by
    rw [hcap]
    decide
  have hrun := exists_stuck_run hlt hco
  rwa [hcap] at hrun

end Claims

end Core

end SimdHash
