import SimdHash.Dictionary
import SimdHash.Limits

/-! When a lookup ends. Removing an entry leaves a tombstone and brings the count
down, so the empty slots that a lookup of an absent key ends at can run out
long before the table grows. -/

namespace SimdHash

open OpenAddressing TagVector Transition

/-- The calls that do no more than `FindEntry` for `key`. -/
def Op.LooksUp {K V : Type} {t : ContainerType} (key : K) : Op K V t → Prop
  | .contains k => k = key
  | .tryGetValue k _ => k = key
  | .tryGetIndex k _ => k = key
  | .remove k _ => k = key
  | _ => False

namespace Core

variable {K V : Type} {c : Template K} {s : Core K V} {key : K}

/-- A window of the probe shows `key`, or some slot from the home slot's offset
in its group of sixteen on is empty. -/
def LookupEnds (c : Template K) (s : Core K V) (key : K) : Prop :=
  (∃ n, s.Seen c key n) ∨ ∃ i < s.capacity,
    s.adjustTupleIndex c (c.hasher key).toNat % 16 ≤ i ∧ s.tags.cell i = TagVector.empty

theorem Layout.seen_iff_hasKey (h : s.Layout c) (hfix : c.bFix = false) :
    (∃ n, s.Seen c key n) ↔ HasKey c s key := by
  constructor
  · intro hseen
    obtain ⟨n, hn⟩ := hseen
    obtain ⟨i, -, e, hlive, hkey⟩ := hn.holds
    exact ⟨i, e, hlive, hkey⟩
  · intro hkey
    obtain ⟨i, e, hlive, rfl⟩ := hkey
    obtain ⟨n, hmem, -⟩ := h.chained i e hlive
    exact ⟨n, (seen_iff hfix).mpr ⟨i, hmem, e, hlive, rfl⟩⟩

theorem LookupEnds.exists_window (hends : LookupEnds c s key) (h : s.Layout c)
    (hco : Nat.Coprime 15 (s.capacity / pageSize)) :
    ∃ n, s.Seen c key n ∨ HasEmpty (s.slots c) (s.windows c (c.hasher key) n) := by
  rcases hends with hseen | hempty
  · obtain ⟨n, hn⟩ := hseen
    exact ⟨n, .inl hn⟩
  · obtain ⟨i, hi, hlow, htag⟩ := hempty
    obtain ⟨n, -, hmem⟩ := h.geometry.exists_window h.size_eq hco (c.hasher key) hlow hi
    exact ⟨n, .inr ⟨i, hmem, TagArray.slots_eq_empty.mpr ⟨hmem.2.2, htag⟩⟩⟩

theorem LookupEnds.exists_fuel (hends : LookupEnds c s key) (h : s.Layout c)
    (hco : Nat.Coprime 15 (s.capacity / pageSize)) : ∃ fuel, ∀ e, ¬ LookupFault c s fuel key e := by
  obtain ⟨n, hn⟩ := hends.exists_window h hco
  refine ⟨2 ^ 16 + n, fun e he => ?_⟩
  obtain ⟨-, hsmall | hall⟩ := he
  · omega
  · obtain ⟨hempty, hseen⟩ := hall n (by omega)
    rcases hn with hn | hn
    · exact hseen hn
    · exact hempty hn

variable [DecidableEq K]

/-- A lookup that returned came to the key or to an empty slot. -/
theorem Layout.lookupEnds (h : s.Layout c) {fuel : ℕ} {r : Option ℕ}
    (hrun : s.findEntry c fuel key = .ok r) : LookupEnds c s key := by
  cases (h.looked_ensures key).value hrun with
  | found hmet =>
    obtain ⟨n, hseen, -⟩ := hmet
    exact .inl ⟨n, hseen⟩
  | absent hunmet =>
    obtain ⟨n, ⟨i, hmem, hempty⟩, -⟩ := hunmet
    obtain ⟨hi, htag⟩ := TagArray.slots_eq_empty.mp hempty
    exact .inr ⟨i, h.size_eq ▸ hi, h.geometry.offset_le hmem, htag⟩

theorem Layout.findEntry_returns_iff (h : s.Layout c)
    (hco : Nat.Coprime 15 (s.capacity / pageSize)) :
    (∃ fuel r, s.findEntry c fuel key = .ok r) ↔ LookupEnds c s key := by
  constructor
  · intro hrun
    obtain ⟨fuel, r, hr⟩ := hrun
    exact h.lookupEnds hr
  · intro hends
    obtain ⟨fuel, hfuel⟩ := hends.exists_fuel h hco
    obtain ⟨r, hr, -⟩ := (h.looked_ensures key).returns hfuel
    exact ⟨fuel, r, hr⟩

theorem Inv.call_returns_iff (h : s.Inv c) (hco : Nat.Coprime 15 (s.capacity / pageSize))
    {op : Op K V c.type} (hop : op.LooksUp key) :
    (∃ out t, Call c s op out t) ↔ LookupEnds c s key := by
  constructor
  · intro hcall
    obtain ⟨out, t, fuel, hstep, -⟩ := hcall
    -- each of these calls begins with `FindEntry`
    obtain ⟨r, hr⟩ : ∃ r, s.findEntry c fuel key = .ok r := by
      cases op with
      | contains k =>
        obtain rfl : k = key := hop
        obtain ⟨r, hr, -⟩ := Exec.bind_eq_ok.mp hstep
        exact ⟨r, hr⟩
      | tryGetValue k offered =>
        obtain rfl : k = key := hop
        obtain ⟨r, hr, -⟩ := Exec.bind_eq_ok.mp hstep
        exact ⟨r, hr⟩
      | tryGetIndex k offered =>
        obtain rfl : k = key := hop
        obtain ⟨r, hr, -⟩ := Exec.bind_eq_ok.mp hstep
        exact ⟨r, hr⟩
      | remove k offered =>
        obtain rfl : k = key := hop
        obtain ⟨u, hu, -⟩ := Exec.bind_eq_ok.mp hstep
        obtain ⟨r, hr, -⟩ := Exec.bind_eq_ok.mp hu
        exact ⟨r, hr⟩
      | _ => exact hop.elim
    exact h.lookupEnds hr
  · intro hends
    obtain ⟨fuel, hfuel⟩ := hends.exists_fuel h.toLayout hco
    have hfault (e : Fault) : ¬ CallFault c s fuel e op := by
      cases op with
      | contains k => exact (show k = key from hop) ▸ hfuel e
      | tryGetValue k offered => exact (show k = key from hop) ▸ hfuel e
      | tryGetIndex k offered => exact (show k = key from hop) ▸ hfuel e
      | remove k offered => exact (show k = key from hop) ▸ hfuel e
      | _ => exact hop.elim
    obtain ⟨r, hr, -⟩ := (h.step_ensures op).returns hfault
    exact ⟨(r.1, r.2.count), r.2, fuel, hr, rfl⟩

/-- In the power-of-two modes a lookup ends exactly when the key is stored, in
a slot that the search does not pass over, or a slot that the probe comes to
is empty. -/
theorem lookups_return_iff (hm : c.mode.isPowerOfTwo) (hs : Reachable c s) (key : K) :
    ((∃ fuel r, s.findEntry c fuel key = .ok r) ↔ LookupEnds c s key) ∧
    (∀ op : Op K V c.type, op.LooksUp key →
      ((∃ out t, Call c s op out t) ↔ LookupEnds c s key)) ∧
    (c.bFix = false → ((∃ n, s.Seen c key n) ↔ HasKey c s key)) := by
  have h := hs.inv
  have hco := h.geometry.coprime_of_powerOfTwo hm
  exact ⟨h.findEntry_returns_iff hco, fun op hop => h.call_returns_iff hco hop, h.seen_iff_hasKey⟩

theorem lookups_return_iff_constantHash : ∃ s : Core ℕ ℕ,
    Reachable (constantHash .map .fast false) s ∧
    ((∃ fuel r, s.findEntry (constantHash .map .fast false) fuel 1 = .ok r) ↔
      LookupEnds (constantHash .map .fast false) s 1) := by
  have hruns : observe (constantHash .map .fast false) 100 zeroedMemory
      [.add false 1 10, .add false 2 20, .remove 1] =
      .ok [(.bool true, 1), (.bool true, 2), (.bool true, 1)] := by
    decide +kernel
  obtain ⟨s, hs⟩ := reachable_of_observe hruns
  exact ⟨s, hs, (lookups_return_iff (.inl rfl) hs 1).1⟩

section Exhaustion

omit [DecidableEq K] in
theorem Inv.freeSlot_home (h : s.Inv c) (hcount : s.count = 0) {i : ℕ}
    (hslot : s.FreeSlot c false key i) : i = s.adjustTupleIndex c (c.hasher key).toNat := by
  have hfree (j : ℕ) (e : Entry K V) : s.slots c j ≠ .live e := h.not_live_of_count hcount j e
  have hhome : s.adjustTupleIndex c (c.hasher key).toNat ∈ s.windows c (c.hasher key) 0 := by
    have hlt := h.size_eq ▸ h.geometry.adjust_lt (c.hasher key).toNat
    exact ⟨le_rfl, Nat.lt_add_of_pos_right (by decide), hlt⟩
  obtain ⟨n, hbefore, hmem, -, hleast, -⟩ := hslot
  obtain rfl : n = 0 := by
    by_contra hn
    exact hbefore 0 (Nat.pos_of_ne_zero hn) ⟨_, hhome, hfree _⟩
  refine le_antisymm (not_lt.mp fun hlt => ?_) hmem.1
  have h12 := (hleast _ hhome (hfree _) hlt).2
  simp only [windowBase] at h12
  omega

/-- Adding a key to a table without entries and removing it again uses up its
home slot. -/
theorem Inv.add_remove (h : s.Inv c) (hm : c.mode.isPowerOfTwo) (hnot : c.type ≠ .index)
    (hfix : c.bFix = false) (hlt : s.capacity < maxSize) (hcount : s.count = 0) (key : K)
    (value : V) :
    ∃ u t, Call c s (.add false key value) (.bool true, 1) u ∧
      Call c u (.remove key hnot) (.bool true, 0) t ∧ t.Inv c ∧ t.count = 0 ∧
      t.capacity = s.capacity ∧ t.maxLoadFactor = s.maxLoadFactor ∧
      t.slots c (s.adjustTupleIndex c (c.hasher key).toNat) ≠ .empty ∧
      ∀ j, t.slots c j = .empty → s.slots c j = .empty := by
  have hlimit : s.count + 1 ≠ s.countGrowthLimit := by
    have hle := le_growthLimit h.factor_min hlt
    have hmin : 4096 ≤ s.capacity := h.geometry.isCapacity.min_le
    rw [h.limit_eq]
    omega
  obtain ⟨r, hadd, hr⟩ := h.add_returns hm hlt (fun hx => hcount.symm ▸ h.limit_pos hx) le_rfl
    false false key value
  cases hr with
  | found hchecked hslot hlive hkey => exact absurd hlive (h.not_live_of_count hcount _ _)
  | @inserted i u hslot hu =>
    obtain ⟨e, hkey, hslots⟩ := hu.slots hlimit
    have hhome := h.freeSlot_home hcount hslot
    have hlive : u.slots c i = .live e := by rw [hslots, Function.update_self]
    have hucap : u.capacity = s.capacity := by rw [hu.capacity, if_neg hlimit]
    have huCount : u.count = 1 := by rw [hu.count, hcount]
    have hempty (j : ℕ) (hj : u.slots c j = .empty) : j ≠ i ∧ s.slots c j = .empty := by
      rw [hslots] at hj
      have hji : j ≠ i := by
        rintro rfl
        simp at hj
      exact ⟨hji, by simpa [hji] using hj⟩
    obtain ⟨n, hseen⟩ := (hu.toLayout.seen_iff_hasKey hfix).mpr ⟨i, e, hlive, hkey⟩
    have hends : LookupEnds c u key := .inl ⟨n, hseen⟩
    obtain ⟨fuel, hfuel⟩ := hends.exists_fuel hu.toLayout
      (hu.geometry.coprime_of_powerOfTwo hm)
    obtain ⟨r, hremove, hr⟩ := (hu.remove_ensures hnot).returns hfuel
    cases hr with
    | absent hunmet => exact absurd hkey (hu.absent_of_unmet hfix hunmet hlive)
    | @removed j e' hmet hlive' hkey' =>
      have hzero : (u.buried j).count = 0 := by
        show u.count - 1 = 0
        omega
      refine ⟨u, u.buried j, ⟨maxSize, by simp [step, hadd], huCount.symm⟩,
        ⟨fuel, by simp [step, hremove], hzero.symm⟩, hu.buried hnot hlive', hzero, hucap,
        hu.factor, ?_, ?_⟩
      · rw [← hhome, slots_buried]
        by_cases hji : i = j
        · simp [hji]
        · rw [Function.update_of_ne hji]
          exact fun hi => (hempty i hi).1 rfl
      · intro k hk
        rw [slots_buried] at hk
        have hkj : k ≠ j := by
          rintro rfl
          simp at hk
        exact (hempty k (by simpa [hkj] using hk)).2

/-- A container of numbers that are their own hashes. -/
abbrev identityHash : Template ℕ where
  type := .map
  mode := .fast
  bFix := false
  bDebug := true
  hasher := UInt64.ofNat

theorem exists_exhausted {start : Core ℕ ℕ} (hstart : Constructed identityHash start) {n : ℕ}
    (hn : n ≤ 4096) :
    ∃ trace t, Run (Call identityHash) start trace t ∧
      trace.map Prod.fst = (List.range n).flatMap (fun k => [.add false k 0, .remove k]) ∧
      t.Inv identityHash ∧ t.count = 0 ∧ t.capacity = 4096 ∧
      ∀ k < n, t.slots identityHash k ≠ .empty := by
  induction n with
  | zero =>
    obtain ⟨h, hcount, -, hcap, -⟩ := hstart.start
    exact ⟨[], start, .nil start, rfl, h, hcount, hcap, by simp⟩
  | succ n ih =>
    obtain ⟨trace, t, hrun, hops, h, hcount, hcap, hfull⟩ := ih (by omega)
    have hlt : t.capacity < maxSize := by
      rw [hcap]
      decide
    obtain ⟨u, w, hadd, hremove, hw, hwcount, hwcap, -, hnew, hold⟩ :=
      h.add_remove (.inl rfl) (by decide) rfl hlt hcount n 0
    have hhome : t.adjustTupleIndex identityHash (UInt64.ofNat n).toNat = n := by
      rw [h.geometry.adjust_eq_mod_of_powerOfTwo (.inl rfl), hcap, UInt64.toNat_ofNat']
      omega
    refine ⟨_, w, (hrun.snoc hadd).snoc hremove, ?_, hw, hwcount, hwcap.trans hcap, ?_⟩
    · rw [List.range_succ, List.flatMap_append, ← hops]
      simp
    · intro k hk hempty
      rcases Nat.lt_succ_iff_lt_or_eq.mp hk with hlt | rfl
      · exact hfull k hlt (hold k hempty)
      · exact hnew (hhome.symm ▸ hempty)

/-- Adding and removing each of 4096 keys in turn leaves no empty slot behind:
no lookup ends any more. -/
theorem lookups_never_return : ∃ (start s : Core ℕ ℕ)
    (trace : List (Op ℕ ℕ .map × Result ℕ × ℕ)), Constructed identityHash start ∧
    Run (Call identityHash) start trace s ∧
    trace.map Prod.fst =
      (List.range 4096).flatMap (fun k => [.add false k 0, .remove k]) ∧
    s.count = 0 ∧ s.capacity = 4096 ∧
    ∀ key fuel r, s.findEntry identityHash fuel key ≠ .ok r := by
  obtain ⟨start, hstart⟩ := exists_constructed identityHash zeroedMemory
  obtain ⟨trace, s, hrun, hops, h, hcount, hcap, hfull⟩ := exists_exhausted hstart le_rfl
  refine ⟨start, s, trace, hstart, hrun, hops, hcount, hcap, fun key fuel r hfind => ?_⟩
  rcases h.lookupEnds hfind with hseen | hempty
  · obtain ⟨i, e, hlive, -⟩ := (h.seen_iff_hasKey rfl).mp hseen
    exact h.not_live_of_count hcount i e hlive
  · obtain ⟨i, hi, -, htag⟩ := hempty
    exact hfull i (hcap ▸ hi) (TagArray.slots_eq_empty.mpr ⟨h.size_eq ▸ hi, htag⟩)

end Exhaustion

end Core

end SimdHash
