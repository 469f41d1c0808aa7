import SimdHash.FastModes
import SimdHash.Hashing
import SimdHash.Insertions
import SimdHash.Placement

/-! Runs of calls in which no two keys that are stored at a time have the same
home. Under the library's own hash functions these are the keys that differ in
the low bits. -/

namespace SimdHash

open OpenAddressing TagVector Transition

namespace Core

variable {K V : Type} {c : Template K} {s t : Core K V} {fuel : ℕ}

section Growing

theorem dvd_adjustCapacity (h : s.Geometry c) (hm : c.mode.isPowerOfTwo) {size : ℕ}
    (hle : s.capacity ≤ adjustCapacity c.mode size) : s.capacity ∣ adjustCapacity c.mode size := by
  obtain ⟨k, hk⟩ := h.powerOfTwo hm
  obtain ⟨l, -, -, hl, -⟩ := adjustCapacity_powerOfTwo hm size
  rw [hk, hl] at hle ⊢
  exact Nat.pow_dvd_pow 2 ((Nat.pow_le_pow_iff_right (by decide)).mp hle)

theorem Inv.resize_home (h : s.Inv c) (hm : c.mode.isPowerOfTwo) (hat : AtHome c s) (size : ℕ) :
    Exec.Ensures (s.resize c fuel size) (AtHome c) (fun _ => True) := by
  by_cases hgt : s.capacity > adjustCapacity c.mode size
  · rw [resize_of_gt hgt]
    exact hat
  rw [resize_eq hgt]
  refine (Exec.ensures_assert fun _ _ => trivial).bind fun _ _ => ?_
  by_cases hsame : adjustCapacity c.mode size = s.tags.size
  · rw [if_pos hsame]
    refine hat.congr ?_ (slots_congr initCapacity_tags (by simp) (by simp))
    rw [initCapacity_capacity, hsame, h.size_eq]
  rw [if_neg hsame]
  refine (Exec.ensures_assert fun _ _ => trivial).bind fun _ _ => ?_
  by_cases hcount : s.count = 0
  · rw [if_pos hcount]
    refine (Exec.ensures_assert fun _ _ => trivial).bind fun _ _ => ?_
    exact homed_of_not_live fun _ _ => slots_emptied _
  · rw [if_neg hcount]
    have hle : s.capacity ≤ adjustCapacity c.mode size := not_lt.mp hgt
    have hcap : (grown c (s.initCapacity c size)).capacity = adjustCapacity c.mode size :=
      initCapacity_capacity
    have htags : (grown c (s.initCapacity c size)).tags = s.tags := initCapacity_tags
    have hspread : Spread c (grown c (s.initCapacity c size)) :=
      hat.spread (hcap ▸ dvd_adjustCapacity h.geometry hm hle) (entriesHeld_grown s size)
    have hrun := (h.stored_grown hle).rehashInternal_home hm hspread (fun _ => by
      rw [hcap, htags, h.size_eq]
      exact lt_of_le_of_ne hle fun heq => hsame (heq.symm.trans h.size_eq.symm)) fuel
    rwa [hcap] at hrun

theorem Inv.rehash_home (h : s.Inv c) (hm : c.mode.isPowerOfTwo) (hnot : c.type ≠ .index)
    (hat : AtHome c s) : Exec.Ensures (s.rehash c fuel) (AtHome c) (fun _ => True) := by
  by_cases hcount : s.count = 0
  · rw [rehash, if_neg (not_not.mpr hcount)]
    exact hat
  · rw [rehash, if_pos hcount, h.size_eq]
    exact h.stored.rehashInternal_home hm (hat.spread dvd_rfl rfl) (fun hx => absurd hx hnot) fuel

theorem cleared_home (s : Core K V) (size : ℕ) : AtHome c (cleared c s size) := by
  rw [cleared]
  split_ifs <;> exact homed_of_not_live fun _ _ => slots_emptied _

end Growing

section Calls

/-- No other stored key has the place of `key`. -/
def Alone (place : K → ℕ) (c : Template K) (s : Core K V) (key : K) : Prop :=
  ∀ k, HasKey c s k → place k = place key → k = key

/-- The insertions of a key whose place no other stored key has, and of an absent
one where it is not checked. -/
def Unshared (place : K → ℕ) (c : Template K) (s : Core K V) : Op K V c.type → Prop
  | .add bUnique key _ => Alone place c s key ∧ (bUnique = true → ¬ HasKey c s key)
  | .addOrUpdate key _ _ => Alone place c s key
  | .tryAdd key _ _ => Alone place c s key
  | _ => True

theorem Unshared.mono {place place' : K → ℕ} {op : Op K V c.type} (h : Unshared place c s op)
    (himp : ∀ k key, place' k = place' key → place k = place key) : Unshared place' c s op := by
  have halone {key : K} (h : Alone place c s key) : Alone place' c s key :=
    fun k hk heq => h k hk (himp k key heq)
  cases op with
  | add bUnique key value => exact ⟨halone h.1, h.2⟩
  | addOrUpdate key value offered => exact halone h
  | tryAdd key value offered => exact halone h
  | _ => trivial

variable {bUnique bUpdate : Bool} {key : K} {value : V} {i : ℕ}

theorem Alone.home_free (h : Alone (s.home c) c s key) (habsent : ¬ HasKey c s key) (hat : AtHome c s)
    (e : Entry K V) : s.slots c (s.home c key) ≠ .live e := by
  intro hlive
  have hkey : HasKey c s e.key := ⟨_, e, hlive, rfl⟩
  exact habsent (h e.key hkey (hat.home_eq hlive) ▸ hkey)

/-- No search passes over a key that is in its home slot. -/
theorem AtHome.seen (hat : AtHome c s) (h : s.Table c) (hm : c.mode.isPowerOfTwo)
    (hkey : HasKey c s key) : s.Seen c key 0 := by
  obtain ⟨i, e, hlive, rfl⟩ := hkey
  rw [← hat.home_eq hlive] at hlive
  refine ⟨_, h.home_mem hm e.key, ⟨e, hlive, rfl⟩, fun hpass => ?_⟩
  have h12 := hpass.2.1
  rw [h.geometry.windowBase_home hm] at h12
  omega

theorem AtHome.not_shadowed (hat : AtHome c s) (h : s.Table c) (hm : c.mode.isPowerOfTwo)
    (key : K) : ¬ Shadowed c s key := by
  intro hs
  obtain ⟨hkey, n, -, hmiss⟩ := hs
  exact hmiss 0 (Nat.zero_le n) (hat.seen h hm hkey)

theorem AtHome.not_unmet (hat : AtHome c s) (h : s.Table c) (hm : c.mode.isPowerOfTwo)
    (key : K) : ¬ (HasKey c s key ∧ Unmet c s key) := by
  intro hs
  obtain ⟨hkey, n, -, hmiss⟩ := hs
  exact hmiss 0 (Nat.zero_le n) (hat.seen h hm hkey)

theorem FreeSlot.unshared (hslot : s.FreeSlot c bUnique key i) (h : s.Table c)
    (hm : c.mode.isPowerOfTwo) (hat : AtHome c s) (halone : Alone (s.home c) c s key)
    (hnew : bUnique = true → ¬ HasKey c s key) : s.home c key = i := by
  refine hslot.eq_home h hm (halone.home_free ?_ hat)
  cases bUnique with
  | true => exact hnew rfl
  | false =>
    intro hkey
    obtain ⟨n, -, hmem, hfree, -, hmiss⟩ := hslot
    exact hat.not_shadowed h hm key ⟨hkey, n, ⟨i, hmem, hfree⟩, hmiss rfl⟩

theorem Unshared.not_astray (h : s.Inv c) (hm : c.mode.isPowerOfTwo) (hat : AtHome c s)
    {place : K → ℕ} {op : Op K V c.type} (hop : Unshared place c s op) : ¬ Astray c s op := by
  intro hbad
  cases op with
  | add bUnique key value =>
    cases bUnique with
    | true => exact hop.2 rfl hbad
    | false => exact hat.not_shadowed h.toTable hm key hbad
  | addOrUpdate key value offered => exact hat.not_shadowed h.toTable hm key hbad
  | tryAdd key value offered => exact hat.not_shadowed h.toTable hm key hbad
  | remove key offered => exact hat.not_unmet h.toTable hm key hbad
  | contains key => exact hat.not_unmet h.toTable hm key hbad
  | tryGetValue key offered => exact hat.not_unmet h.toTable hm key hbad
  | tryGetIndex key offered => exact hat.not_unmet h.toTable hm key hbad
  | _ => exact hbad

theorem home_eq_iff (h : s.Geometry c) (hm : c.mode.isPowerOfTwo) {type : HashType}
    {bits : K → UInt64} (hhash : c.hasher = Hash.ofBits type bits) (k key : K) :
    s.home c k = s.home c key ↔
      (bits k).toNat % s.capacity = (bits key).toNat % s.capacity := by
  obtain ⟨n, -, hn, hcap⟩ := h.exists_log hm
  rw [home, home, hhash, hcap]
  exact Hash.hash_mod_two_pow_iff type (by omega) (bits k) (bits key)

variable [DecidableEq K]

theorem Inv.insert_home (h : s.Inv c) (hm : c.mode.isPowerOfTwo) (hat : AtHome c s)
    (hslot : s.FreeSlot c bUnique key i) (hhome : s.home c key = i) (value : V) :
    Exec.Ensures (s.insert c fuel i key value) (AtHome c) (fun _ => True) := by
  have hsettings : SameSettings s (Core.paged c s) := paged_sameSettings
  have hlt : i < (Core.paged c s).tags.size := by
    rw [paged_tags]
    exact hslot.lt_size
  set u := Core.placed c (Core.paged c s) i (newEntry c s i key value) with hu
  have hcap : u.capacity = s.capacity := hsettings.capacity
  have hslots : u.slots c = Function.update (s.slots c) i (.live (newEntry c s i key value)) := by
    rw [hu, h.paged.slots_placed hlt, slots_paged]
  have hplaced : AtHome c u := by
    rw [AtHome, hslots, home_congr hcap]
    refine Homed.fill hat ?_
    rw [newEntry_key]
    exact hhome
  rw [insert_eq h hslot.lt_size]
  split_ifs
  · exact (h.placed_paged hslot.lt_size hslot.not_live hslot.reached value).resize_home hm hplaced _
  · exact hplaced

theorem Inv.add_home (h : s.Inv c) (hm : c.mode.isPowerOfTwo)
    (hat : AtHome c s) (halone : Alone (s.home c) c s key) (hnew : bUnique = true → ¬ HasKey c s key) :
    Exec.Ensures (s.add c fuel bUnique bUpdate key value) (fun r => AtHome c r.2)
      (fun _ => True) := by
  have hinsert {i : ℕ} (hslot : s.FreeSlot c bUnique key i) :
      Exec.Ensures (s.insert c fuel i key value >>= fun t => .ok ((true, s.count), t))
        (fun r => AtHome c r.2) (fun _ => True) :=
    (h.insert_home hm hat hslot (hslot.unshared h.toTable hm hat halone hnew) value).bind
      fun t ht => ht
  cases bUnique with
  | true =>
    refine Exec.Ensures.bind ((h.toTable.probeUnique_ensures key).imp (fun r hr => hr) ?_) ?_
    · exact fun _ _ => trivial
    · intro _ hr
      obtain ⟨i, rfl, hslot⟩ := hr
      exact hinsert hslot
  | false =>
    refine Exec.Ensures.bind ((h.probeChecked_ensures key).imp (fun r hr => hr) ?_) ?_
    · exact fun _ _ => trivial
    · intro _ hr
      rcases hr with ⟨i, rfl, hslot⟩ | ⟨i, rfl, hslot⟩
      · obtain ⟨-, -, -, -, e, hlive, hkey⟩ := hslot
        cases bUpdate with
        | true =>
          simp only [h.update_eq value hlive, if_true, Exec.ok_bind, Exec.ensures_ok]
          split_ifs with hmap
          · have hhome : s.home c e.key = _ := hat.home_eq hlive
            rw [AtHome, slots_revalued (by simp [hmap]) { e with value } hlive]
            exact Homed.fill hat hhome
          · exact hat
        | false => exact hat
      · exact hinsert hslot

/-- One call leaves every entry in its home slot. -/
theorem Inv.step_home (h : s.Inv c) (hm : c.mode.isPowerOfTwo)
    (hat : AtHome c s) {op : Op K V c.type} (hop : Unshared (s.home c) c s op) :
    Exec.Ensures (step c fuel s op) (fun r => AtHome c r.2) (fun _ => True) := by
  have hadd {bUnique bUpdate : Bool} {key : K} {value : V} (halone : Alone (s.home c) c s key)
      (hnew : bUnique = true → ¬ HasKey c s key) :
      Exec.Ensures (s.add c fuel bUnique bUpdate key value) (fun r => AtHome c r.2)
        (fun _ => True) := h.add_home hm hat halone hnew
  have hlook (key : K) : Exec.Ensures (s.findEntry c fuel key) (fun _ => True) (fun _ => True) :=
    (h.looked_ensures key).imp (fun _ _ => trivial) fun _ _ => trivial
  cases op with
  | add bUnique key value => exact (hadd hop.1 hop.2).bind fun ⟨⟨b, index⟩, t⟩ ht => ht
  | addOrUpdate key value offered =>
    exact (hadd hop (by simp)).bind fun ⟨⟨b, index⟩, t⟩ ht => ht
  | tryAdd key value offered => exact (hadd hop (by simp)).bind fun ⟨⟨b, index⟩, t⟩ ht => ht
  | remove key offered =>
    refine ((h.remove_ensures offered).imp (fun r hr => hr) fun _ _ => trivial).bind ?_
    intro r hr
    cases hr with
    | removed hmet hlive hkey =>
      rw [Exec.ensures_ok, AtHome, slots_buried]
      exact Homed.bury hat
    | absent hunmet => exact hat
  | contains key => exact (hlook key).bind fun _ _ => hat
  | tryGetValue key offered =>
    refine (h.looked_ensures key).imp (fun r hr => hr) (fun _ _ => trivial) |>.bind fun r hr => ?_
    cases hr with
    | found hmet hlive hkey =>
      simp only [h.read_found hlive, Exec.ok_bind]
      exact hat
    | absent hunmet => exact hat
  | tryGetIndex key offered => exact (hlook key).bind fun _ _ => hat
  | resize size => exact (h.resize_home hm hat size).bind fun t ht => ht
  | rehash offered => exact (h.rehash_home hm offered hat).bind fun t ht => ht
  | clear size =>
    rw [step, h.clear_eq size, bind_assoc]
    exact (Exec.ensures_assert fun _ _ => trivial).bind fun _ _ => cleared_home s size
  | setMaxLoadFactor mlf => exact hat.congr rfl (slots_congr rfl rfl rfl)

end Calls

section Runs

variable [DecidableEq K] {start : Core K V} {trace : List (Op K V c.type × Result V × ℕ)}

theorem Inv.findEntry_at_home (h : s.Inv c) (hm : c.mode.isPowerOfTwo) (hat : AtHome c s) {key : K}
    (hkey : HasKey c s key) (fuel : ℕ) :
    s.findEntry c (fuel + 1) key = .ok (some (s.ref c (s.home c key))) := by
  obtain ⟨i, e, hlive, rfl⟩ := hkey
  rw [← hat.home_eq hlive] at hlive
  obtain ⟨r, hr, rfl⟩ := (h.findEntry_home hm hlive rfl (fuel + 1)).returns (by simp)
  exact hr

/-- One call of a client that keeps the low bits of the stored keys apart. -/
theorem Call.home {type : HashType} {bits : K → UInt64} (hhash : c.hasher = Hash.ofBits type bits)
    (hm : c.mode.isPowerOfTwo) (h : s.Inv c) (hat : AtHome c s)
    {op : Op K V c.type} {out : Result V × ℕ}
    (hop : Unshared (fun k => (bits k).toNat % s.capacity) c s op) (hcall : Call c s op out t) :
    t.Inv c ∧ AtHome c t := by
  have hop' : Unshared (s.home c) c s op :=
    hop.mono fun k key heq => (home_eq_iff h.geometry hm hhash k key).mp heq
  obtain ⟨fuel, hstep, hcount⟩ := id hcall
  exact ⟨hcall.inv h, (h.step_home hm hat hop').value hstep⟩

/-- Where the library's own hash function is given keys that differ in the low
bits, a `Map` or `Set` is a finite map, removals included, and the first slot
that a lookup of a stored key looks at holds it. -/
theorem keys_found_at_home (hm : c.mode.isPowerOfTwo) {type : HashType}
    {bits : K → UInt64} (hhash : c.hasher = Hash.ofBits type bits) (hstart : Constructed c start)
    (hrun : Run (guard (fun s => Unshared (fun k => (bits k).toNat % s.capacity) c s) (Call c))
      start trace s) :
    (c.type ≠ .index → (replay Dictionary.spec ∅ (trace.map Prod.fst)).1 = trace.map Prod.snd) ∧
    ∀ key, HasKey c s key → ∀ fuel, s.findEntry c (fuel + 1) key =
      .ok (some (s.ref c ((c.hasher key).toNat % s.capacity))) := by
  have hempty : AtHome c start :=
    homed_of_not_live fun i e => hstart.start.1.not_live_of_count hstart.start.2.1 i e
  constructor
  · intro hnot
    refine (hrun.refines (R := fun s m => Represents c s m ∧ AtHome c s) ?_
      ⟨hstart.represents, hempty⟩).1
    intro s m op out t hR hstep
    obtain ⟨hr, hat⟩ := hR
    obtain ⟨hop, hcall⟩ := hstep
    obtain ⟨hiff, hnext⟩ := hr.call hnot hcall
    have hright : ¬ Astray c s op := hop.not_astray hr.toInv hm hat
    exact ⟨hiff.mpr hright, hnext hright, (hcall.home hhash hm hr.toInv hat hop).2⟩
  · obtain ⟨hinv, hat⟩ := hrun.invariant (I := fun s => s.Inv c ∧ AtHome c s)
      (fun _ _ _ _ hI hstep => hstep.2.home hhash hm hI.1 hI.2 hstep.1)
      ⟨hstart.start.1, hempty⟩
    exact fun key hkey fuel => hinv.findEntry_at_home hm hat hkey fuel

/-- Numbers under the library's default hash function. -/
abbrev numbers (type : ContainerType) (mode : Mode) : Template ℕ :=
  { constantHash type mode false with hasher := Hash.ofBits .absl UInt64.ofNat }

theorem keys_found_at_home_numbers : ∃ (s : Core ℕ ℕ) (key : ℕ), HasKey (numbers .map .fast) s key ∧
    s.count = 2 ∧ ∀ fuel, (s.findEntry (numbers .map .fast) (fuel + 1) key).isOk := by
  have hruns : observe (numbers .map .fast) 100 zeroedMemory [.add false 1 10, .addOrUpdate 2 20] =
      .ok [(.bool true, 1), (.bool true, 2)] := by
    decide +kernel
  obtain ⟨start, trace, s, hstart, hrun, hops, houts⟩ := observe_run hruns
  obtain rfl := List.zip_of_prod hops houts
  cases hrun with
  | @cons _ t _ _ _ _ hfirst hrest =>
    cases hrest with
    | cons hsecond hnil =>
      cases hnil
      have hempty (k : ℕ) : ¬ HasKey (numbers .map .fast) start k := by
        intro hk
        obtain ⟨i, e, hlive, -⟩ := hk
        exact hstart.start.1.not_live_of_count hstart.start.2.1 i e hlive
      have ht := (hstart.represents.call (by decide) hfirst).2 fun hbad => hempty 1 hbad.1
      have hkeys (k : ℕ) : HasKey (numbers .map .fast) t k ↔ k = 1 := by
        have hnone (k : ℕ) : k ∉ (∅ : Dictionary ℕ ℕ) := Finmap.notMem_empty
        refine (Iff.symm ht.mem_iff).trans ?_
        simp [Dictionary.spec, Dictionary.call, hnone]
      have hmin : minSize ≤ t.capacity := ht.geometry.isCapacity.min_le
      have hsmall {k : ℕ} (hk : k < 3) : (UInt64.ofNat k).toNat % t.capacity = k := by
        simp only [minSize] at hmin
        rw [UInt64.toNat_ofNat_of_lt' (hk.trans (by decide)), Nat.mod_eq_of_lt (by omega)]
      have hguard : Run (guard (fun s => Unshared (fun k => (UInt64.ofNat k).toNat % s.capacity)
          (numbers .map .fast) s) (Call (numbers .map .fast))) start
          [(.add false 1 10, .bool true, 1), (.addOrUpdate 2 20, .bool true, 2)] s := by
        refine .cons ⟨⟨fun k hk => absurd hk (hempty k), by simp⟩, hfirst⟩
          (.cons ⟨?_, hsecond⟩ (.nil s))
        intro k hk heq
        obtain rfl := (hkeys k).mp hk
        simp only [hsmall (show 1 < 3 by decide), hsmall (show 2 < 3 by decide)] at heq
        exact absurd heq (by decide)
      have hs := (ht.call (by decide) hsecond).2 fun hbad => absurd ((hkeys 2).mp hbad.1) (by decide)
      have hkey : HasKey (numbers .map .fast) s 2 := by
        refine hs.mem_iff.mp ?_
        simp [Dictionary.spec, Dictionary.call]
      have hhash : (numbers .map .fast).hasher = Hash.ofBits .absl UInt64.ofNat := rfl
      refine ⟨s, 2, hkey, hsecond.choose_spec.2.symm, fun fuel => ?_⟩
      rw [(keys_found_at_home (.inl rfl) hhash hstart hguard).2 2 hkey fuel]
      rfl

end Runs

end Core

end SimdHash
