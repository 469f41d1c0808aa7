import SimdHash.Contents
import SimdHash.Iteration

/-! `Remove` inside a range-based `for`. The iterator reads the tags as they are
when it comes to a vector, and has the mask of the vector it is in from before. -/

namespace SimdHash

open OpenAddressing TagVector Transition

namespace Core

variable {K V : Type} {c : Template K} {s t : Core K V}

section Loop

variable [DecidableEq K] (c : Template K) (width fuel : ℕ) (keep : Entry K V → Bool) (s : Core K V)

/-- `if (!keep(entry)) Remove(entry.key);` -/
def removeUnless (entry : Entry K V) : Exec (Core K V) :=
  if keep entry then .ok s
  else do
    let (_, s) ← s.remove c fuel entry.key
    .ok s

/-- The loop up to `last`, with the entries it comes to. -/
def retainUntil (last : Core K V → ConstIterator) : Exec (List (Entry K V) × Core K V) := do
  let first ← s.begin c width fuel
  Exec.loop (fun (it, seen, s) =>
    if it.idx = (last s).idx then .ok (.inr (seen, s))
    else do
      let entry ← s.entries.read it.idx
      let s ← s.removeUnless c fuel keep entry
      let it ← s.seek c width fuel it
      .ok (.inl (it, seen ++ [entry], s))) fuel (first, [], s)

/-- The range-based `for`, which evaluates `end()` before its first round. -/
def retain : Exec (List (Entry K V) × Core K V) := s.retainUntil c width fuel keep fun _ => s.end' c

/-- The loop that compares with `end()` in each round. -/
def retainAfresh : Exec (List (Entry K V) × Core K V) :=
  s.retainUntil c width fuel keep fun s => s.end' c

end Loop

section Removal

variable [DecidableEq K] {fuel i : ℕ} {e : Entry K V}

omit [DecidableEq K] in
/-- The probe repeats itself after as many windows as there are slots. -/
theorem Layout.seen_below (h : s.Layout c) (hfix : c.bFix = false) (hlive : s.slots c i = .live e) :
    ∃ n < s.capacity, s.Seen c e.key n := by
  obtain ⟨n, hmem, -⟩ := h.chained i e hlive
  refine ⟨n % s.capacity, Nat.mod_lt _ h.geometry.capacity_pos, (seen_iff hfix).mpr ⟨i, ?_, e, hlive, rfl⟩⟩
  rwa [(h.geometry.windows_periodic (c.hasher e.key)).map_mod_nat n]

omit [DecidableEq K] in
theorem Layout.lookupFault_of_live (h : s.Layout c) (hfix : c.bFix = false)
    (hfuel : s.capacity ≤ fuel) (hbig : 2 ^ 16 ≤ fuel) (hlive : s.slots c i = .live e) (fault : Fault) :
    ¬ LookupFault c s fuel e.key fault := by
  intro hfault
  obtain ⟨-, hsmall | hall⟩ := hfault
  · omega
  · obtain ⟨n, hn, hseen⟩ := h.seen_below hfix hlive
    exact (hall n (by omega)).2 hseen

theorem Inv.remove_live (h : s.Inv c) (hnot : c.type ≠ .index) (hfix : c.bFix = false)
    (hnodup : ((s.entriesHeld c).map Entry.key).Nodup) (hfuel : s.capacity ≤ fuel)
    (hbig : 2 ^ 16 ≤ fuel) (hlive : s.slots c i = .live e) :
    s.remove c fuel e.key = .ok (true, s.buried i) := by
  obtain ⟨r, hremove, hr⟩ :=
    (h.remove_ensures hnot).returns (h.lookupFault_of_live hfix hfuel hbig hlive)
  cases hr with
  | @removed j e' hmet hlive' hkey =>
    have hsame : j = i := slot_unique hnodup (Finset.mem_range.mpr (slots_lt_size hlive'))
      (Finset.mem_range.mpr (slots_lt_size hlive)) hlive' hlive hkey
    rw [hremove, hsame]
  | absent hunmet => exact absurd rfl (h.absent_of_unmet hfix hunmet hlive)

end Removal

section Dropping

variable {keep : Entry K V → Bool} {n m : ℕ}

def Dropped (keep : Entry K V → Bool) (s : Core K V) (i : ℕ) : Prop :=
  s.Occupied i ∧ keep (s.entries.cell i) = false

instance (keep : Entry K V → Bool) (s : Core K V) : DecidablePred (s.Dropped keep) := fun i =>
  inferInstanceAs (Decidable (s.Occupied i ∧ keep (s.entries.cell i) = false))

variable [DecidableEq K]

/-- `t` is `s` where the entries in slots below `n` that are not kept have been removed. -/
structure Pruned (c : Template K) (keep : Entry K V → Bool) (s : Core K V) (n : ℕ) (t : Core K V) :
    Prop where
  reachable : Reachable c t
  entries : t.entries = s.entries
  capacity : t.capacity = s.capacity
  slots : ∀ i, t.slots c i = if i < n ∧ s.Dropped keep i then .tombstone else s.slots c i
  nodup : ((t.entriesHeld c).map Entry.key).Nodup

theorem Pruned.size (h : Pruned c keep s n t) (hs : s.Inv c) : t.tags.size = s.tags.size := by
  rw [h.reachable.inv.size_eq, hs.size_eq, h.capacity]

theorem Pruned.start (hs : Reachable c s) (hnodup : ((s.entriesHeld c).map Entry.key).Nodup) :
    Pruned c keep s 0 s where
  reachable := hs
  entries := rfl
  capacity := rfl
  slots i := by simp
  nodup := hnodup

theorem Pruned.occupied_iff (h : Pruned c keep s n t) {i : ℕ} :
    t.Occupied i ↔ s.Occupied i ∧ ¬ (i < n ∧ s.Dropped keep i) := by
  rw [Core.occupied_iff (c := c), Core.occupied_iff (c := c), h.slots]
  split_ifs with hi <;> simp [hi]

theorem Pruned.occupied_iff_of_le (h : Pruned c keep s n t) {i : ℕ} (hi : n ≤ i) :
    t.Occupied i ↔ s.Occupied i := by
  rw [h.occupied_iff]
  exact and_iff_left fun hlt => absurd hlt.1 (by omega)

theorem Pruned.extend (h : Pruned c keep s n t) (hnm : n ≤ m)
    (hkept : ∀ i, n ≤ i → i < m → ¬ s.Dropped keep i) : Pruned c keep s m t where
  reachable := h.reachable
  entries := h.entries
  capacity := h.capacity
  slots i := by
    rw [h.slots]
    refine if_congr ?_ rfl rfl
    constructor
    · intro hi
      exact ⟨by omega, hi.2⟩
    · intro hi
      refine ⟨?_, hi.2⟩
      by_contra hle
      exact hkept i (by omega) hi.1 hi.2
  nodup := h.nodup

theorem Pruned.live (h : Pruned c keep s n t) (hnot : c.type ≠ .index) (hs : s.Inv c)
    (hocc : s.Occupied n) : t.slots c n = .live (s.entries.cell n) := by
  have hlt : n < s.capacity := hs.size_eq ▸ hocc.1
  rw [h.slots, if_neg (by omega)]
  exact (hs.slots_live hnot).mpr ⟨hlt, hocc.2, rfl⟩

theorem Pruned.bury (h : Pruned c keep s n t) (hnot : c.type ≠ .index) (hs : s.Inv c)
    (hdrop : s.Dropped keep n) {fuel : ℕ}
    (hremove : t.remove c fuel (s.entries.cell n).key = .ok (true, t.buried n)) :
    Pruned c keep s (n + 1) (t.buried n) := by
  have hlive := h.live hnot hs hdrop.1
  refine ⟨?_, h.entries, h.capacity, fun i => ?_, ?_⟩
  · have hcall : Call c t (.remove (s.entries.cell n).key hnot) (.bool true, (t.buried n).count)
        (t.buried n) := ⟨fuel, by simp [step, hremove], rfl⟩
    exact h.reachable.call hcall
  · rw [slots_buried]
    by_cases hi : i = n
    · rw [hi, Function.update_self, if_pos ⟨Nat.lt_succ_self n, hdrop⟩]
    · rw [Function.update_of_ne hi, h.slots]
      have hlt : i < n ↔ i < n + 1 := by omega
      exact if_congr (and_congr_left fun _ => hlt) rfl rfl
  · have hheld := h.nodup
    rw [entriesHeld_buried hlive, Multiset.map_cons] at hheld
    exact (Multiset.nodup_cons.mp hheld).2

/-- One round removes the entry it is at, unless that is kept. -/
theorem Pruned.removeUnless_ensures (h : Pruned c keep s n t) (hnot : c.type ≠ .index)
    (hfix : c.bFix = false) (hs : s.Inv c) (hocc : s.Occupied n) {fuel : ℕ}
    (hfuel : s.capacity ≤ fuel) (hbig : 2 ^ 16 ≤ fuel) :
    Exec.Ensures (t.removeUnless c fuel keep (s.entries.cell n)) (Pruned c keep s (n + 1))
      (fun _ => False) := by
  by_cases hkeep : keep (s.entries.cell n) = true
  · rw [removeUnless, if_pos hkeep]
    refine h.extend (Nat.le_succ n) fun i hi hlt hdrop => ?_
    obtain rfl : i = n := by omega
    simp [hdrop.2] at hkeep
  · have hremove := h.reachable.inv.remove_live hnot hfix h.nodup (h.capacity ▸ hfuel) hbig
      (h.live hnot hs hocc)
    rw [removeUnless, if_neg hkeep, hremove]
    exact h.bury hnot hs ⟨hocc, by simpa using hkeep⟩ hremove

omit [DecidableEq K] in
/-- What the iterator has ahead of it does not change with the slots behind it. -/
theorem Ahead.congr {width : ℕ} {it : ConstIterator} (h : s.Ahead width n it)
    (hsize : t.tags.size = s.tags.size) (hocc : ∀ i, n ≤ i → (t.Occupied i ↔ s.Occupied i)) :
    t.Ahead width n it where
  aligned := h.aligned
  inside := hsize ▸ h.inside
  le := h.le
  mask_lt := h.mask_lt
  bit o := by
    rw [h.bit]
    constructor
    · intro hset
      exact ⟨hset.1, (hocc _ hset.2.2).mpr hset.2.1, hset.2.2⟩
    · intro hset
      exact ⟨hset.1, (hocc _ hset.2.2).mp hset.2.1, hset.2.2⟩

end Dropping

section Walk

variable [DecidableEq K] {keep : Entry K V → Bool} {width fuel : ℕ}
  {last : Core K V → ConstIterator}

/-- What the loop has done when it is at `it`: it has come to the entries before
that, and they are pruned. -/
structure Walked (c : Template K) (keep : Entry K V → Bool) (s : Core K V) (width : ℕ)
    (it : ConstIterator) (seen : List (Entry K V)) (t : Core K V) : Prop where
  pruned : Pruned c keep s it.idx t
  slot : t.AtSlot width it
  seen : seen = (s.occupiedBelow it.idx).map s.entries.cell

/-- One round removes the entry or keeps it, and goes on to the next one. -/
theorem Walked.round_ensures {it : ConstIterator} {seen : List (Entry K V)}
    {R : List (Entry K V) × Core K V → Prop} {E : Fault → Prop}
    (ht : Walked c keep s width it seen t) (h : s.Inv c) (hnot : c.type ≠ .index)
    (hfix : c.bFix = false) (hw : IsWidth width) (hfuel : s.capacity < fuel) (hbig : 2 ^ 16 ≤ fuel)
    (hocc : s.Occupied it.idx) :
    Exec.Ensures (do
        let t ← t.removeUnless c fuel keep (s.entries.cell it.idx)
        let it' ← t.seek c width fuel it
        .ok (.inl (it', seen ++ [s.entries.cell it.idx], t)))
      (Sum.elim (fun st => it.idx < st.1.idx ∧ Walked c keep s width st.1 st.2.1 st.2.2) R) E := by
  have hsize := h.size_eq
  have hdvd : width ∣ s.tags.size := by
    rw [hsize]
    exact hw.dvd_page.trans h.geometry.isCapacity.page
  have hlt := hocc.1
  refine (ht.pruned.removeUnless_ensures hnot hfix h hocc hfuel.le hbig).imp
    (fun _ ht => ht) (fun _ he => he.elim) |>.bind fun t' hpruned' => ?_
  have htsize : t'.tags.size = s.tags.size := hpruned'.size h
  have hahead : t'.Ahead width (it.idx + 1) it := by
    have htsize' : t.tags.size = s.tags.size := ht.pruned.size h
    refine (ht.slot.ahead (by omega)).congr (htsize.trans htsize'.symm) fun i hi => ?_
    rw [hpruned'.occupied_iff_of_le hi, ht.pruned.occupied_iff_of_le (by omega)]
  refine (seek_ensures hnot hw (by rwa [htsize]) (by omega) hahead
    (ht.slot.base_le.trans (Nat.le_succ _))).imp (fun _ hit => hit) (fun _ he => he.elim)
    |>.bind fun it' hit' => ?_
  obtain ⟨hle, hskip, hat'⟩ := hit'
  have hfree : ∀ i, it.idx + 1 ≤ i → i < it'.idx → ¬ s.Occupied i := by
    intro i hi hlt hbad
    exact hskip i hi hlt ((hpruned'.occupied_iff_of_le hi).mpr hbad)
  refine ⟨hle, hpruned'.extend hle fun i hi hlt hdrop => hfree i hi hlt hdrop.1, hat', ?_⟩
  rw [ht.seen, occupiedBelow_skip hle hfree, occupiedBelow_succ hocc, List.map_append]
  rfl

/-- The loop comes to every entry, provided that `last` is not a slot that holds
one. It ends where `last` is then the end of the table. -/
theorem Inv.retainUntil_ensures (h : s.Inv c) (hs : Reachable c s) (hnot : c.type ≠ .index)
    (hfix : c.bFix = false) (hnodup : ((s.entriesHeld c).map Entry.key).Nodup)
    (hw : IsWidth width) (hfuel : s.capacity < fuel) (hbig : 2 ^ 16 ≤ fuel) (hcount : s.count ≠ 0)
    (hon : ∀ n t, Pruned c keep s n t → s.Occupied n → n ≠ (last t).idx) :
    Exec.Ensures (s.retainUntil c width fuel keep last)
      (fun r => r.1 = (s.occupiedBelow s.capacity).map s.entries.cell ∧
        Pruned c keep s s.capacity r.2 ∧ (last r.2).idx = s.capacity)
      (fun e => e = .outOfBounds ∧ ∃ t, Pruned c keep s s.capacity t ∧
        (last t).idx ≠ s.capacity) := by
  have hsize := h.size_eq
  refine ((h.begin_ensures hnot hw (hsize ▸ hfuel.le) hcount).imp (fun _ hit => hit)
    fun _ he => he.elim).bind fun first hfirst => ?_
  refine Exec.ensures_loop (I := fun k st => k ≤ st.1.idx ∧
    Walked c keep s width st.1 st.2.1 st.2.2) ?_ ?_ ?_
  · refine ⟨Nat.zero_le _, ?_, hfirst.2, ?_⟩
    · exact (Pruned.start hs hnodup).extend (Nat.zero_le _) fun i _ hi hdrop => hfirst.1 i hi hdrop.1
    · rw [occupiedBelow_skip (Nat.zero_le _) fun i _ hi => hfirst.1 i hi]
      rfl
  · intro k st _ hI
    obtain ⟨it, seen, t⟩ := st
    obtain ⟨hk, ht⟩ := hI
    simp only at hk ht
    have htsize : t.tags.size = s.tags.size := ht.pruned.size h
    by_cases hlt : it.idx < s.capacity
    · have hocc := (ht.pruned.occupied_iff_of_le le_rfl).mp (ht.slot.occupied (by omega))
      have hread : t.entries.read it.idx = .ok (s.entries.cell it.idx) := by
        rw [ht.pruned.entries]
        exact Block.read_of_lt (by rwa [h.entries_size hnot])
      simp only [if_neg (hon _ t ht.pruned hocc), hread, Exec.ok_bind]
      refine (ht.round_ensures (R := fun _ => False) h hnot hfix hw hfuel hbig hocc).mono fun r hr => ?_
      cases r with
      | inl st => exact ⟨Nat.lt_of_le_of_lt hk hr.1, hr.2⟩
      | inr r => exact hr.elim
    · have hidx : it.idx = s.capacity := by
        have := ht.slot.le
        omega
      obtain ⟨hpruned, -, hseen⟩ := ht
      rw [hidx] at hpruned hseen
      by_cases hlast : s.capacity = (last t).idx
      · simp only [hidx, if_pos hlast, Exec.ensures_ok, Sum.elim_inr]
        exact ⟨hseen, hpruned, hlast.symm⟩
      · have hread : t.entries.read s.capacity = .error .outOfBounds := by
          rw [hpruned.entries]
          exact if_neg (by rw [h.entries_size hnot]; exact lt_irrefl _)
        simp only [hidx, if_neg hlast, hread, Exec.error_bind, Exec.ensures_error]
        exact ⟨trivial, t, hpruned, Ne.symm hlast⟩
  · intro st hI
    have := hI.1
    have := hI.2.slot.le
    have := hI.2.pruned.size h
    omega

/-- `t` holds the entries of `s` that are kept, in the slots that they had. -/
structure Retained (c : Template K) (keep : Entry K V → Bool) (s t : Core K V) : Prop where
  reachable : Reachable c t
  live : t.liveEntries = s.liveEntries.filter fun e => keep e = true
  count : t.count = (s.liveEntries.filter fun e => keep e = true).card
  capacity : t.capacity = s.capacity
  slots : ∀ i, t.slots c i = if s.Dropped keep i then .tombstone else s.slots c i

theorem Pruned.retained (hpruned : Pruned c keep s s.capacity t) (hnot : c.type ≠ .index)
    (hs : s.Inv c) : Retained c keep s t := by
  have ht := hpruned.reachable.inv
  have hlive : t.liveEntries = s.liveEntries.filter fun e => keep e = true := by
    rw [liveEntries, liveEntries, Multiset.filter_map, ← Finset.filter_val, Finset.filter_filter,
      hpruned.entries, hpruned.capacity]
    refine congrArg (fun S => Finset.val S |>.map s.entries.cell) (Finset.filter_congr ?_)
    intro i hi
    have hi' : i < s.tags.size := hs.size_eq ▸ Finset.mem_range.mp hi
    have hit : i < t.tags.size := by rwa [hpruned.size hs]
    have hocc := hpruned.occupied_iff (i := i)
    simp only [Occupied, Dropped, hi', hit, true_and, Finset.mem_range.mp hi] at hocc
    rw [hocc]
    cases hkeep : keep (s.entries.cell i) <;> simp [hkeep]
  refine ⟨hpruned.reachable, hlive, ?_, hpruned.capacity, fun i => ?_⟩
  · rw [ht.count_eq, ht.entriesHeld_eq hnot, hlive]
  · rw [hpruned.slots]
    refine if_congr (and_iff_right_of_imp ?_) rfl rfl
    intro hdrop
    exact hs.size_eq ▸ hdrop.1.1

/-- The loop comes to the end at once if there is no entry. -/
theorem Inv.retainUntil_of_empty (h : s.Inv c) (hs : Reachable c s) (hcount : s.count = 0)
    (hnodup : ((s.entriesHeld c).map Entry.key).Nodup) (hfuel : 0 < fuel)
    (hlast : (last s).idx = 0) :
    s.retainUntil c width fuel keep last =
        .ok ((s.occupiedBelow s.capacity).map s.entries.cell, s) ∧
      Pruned c keep s s.capacity s := by
  obtain ⟨fuel, rfl⟩ : ∃ n, fuel = n + 1 := ⟨fuel - 1, by omega⟩
  have hnone : s.occupiedBelow s.capacity = [] := by
    rw [← h.size_eq]
    exact List.length_eq_zero_iff.mp (h.length_occupied.trans hcount)
  constructor
  · simp [retainUntil, begin, hcount, hlast, hnone, Exec.loop]
  · refine (Pruned.start hs hnodup).extend (Nat.zero_le _) fun i _ hi hdrop => ?_
    have hmem : i ∈ s.occupiedBelow s.capacity :=
      List.mem_filter.mpr ⟨List.mem_range.mpr hi, decide_eq_true hdrop.1⟩
    simp [hnone] at hmem

/-- Three keys of one hash. -/
theorem exists_three : ∃ s : Core ℕ ℕ, Reachable (constantHash .map .fast false) s ∧
    s.capacity = 4096 ∧ s.count = 3 ∧ s.liveEntries = {⟨1, 10⟩, ⟨2, 20⟩, ⟨3, 30⟩} := by
  have hruns : ((after (constantHash .map .fast false) 100 zeroedMemory
      [.add false 1 10, .add false 2 20, .add false 3 30]) >>= fun s => .ok (s.capacity, s.count,
        ((List.range s.capacity).filter fun i => s.tags.cell i < 0x80).map s.entries.cell)) =
      .ok (4096, 3, [⟨1, 10⟩, ⟨2, 20⟩, ⟨3, 30⟩]) := by
    decide +kernel
  obtain ⟨s, hafter, hs⟩ := Exec.bind_eq_ok.mp hruns
  simp only [Except.ok.injEq, Prod.mk.injEq] at hs
  obtain ⟨hcap, hcount, hheld⟩ := hs
  exact ⟨s, reachable_of_after hafter, hcap, hcount, congrArg Multiset.ofList hheld⟩

/-- A range-based `for` over a `Map` or `Set` that removes each entry it does
not want to keep comes to all entries, once each, and leaves those to keep. -/
theorem retain_keeps (hnot : c.type ≠ .index) (hfix : c.bFix = false) (hs : Reachable c s)
    (hnodup : (s.liveEntries.map Entry.key).Nodup) (hw : IsWidth width)
    (hfuel : s.capacity < fuel) (hbig : 2 ^ 16 ≤ fuel) (keep : Entry K V → Bool) :
    ∃ t, s.retain c width fuel keep =
        .ok ((s.occupiedBelow s.capacity).map s.entries.cell, t) ∧ Retained c keep s t := by
  have h := hs.inv
  rw [← h.entriesHeld_eq hnot] at hnodup
  by_cases hcount : s.count = 0
  · have hlast : (s.end' c).idx = 0 := by simp [end', hnot, hcount]
    have hpos : 0 < fuel := by omega
    have hempty : s.retain c width fuel keep = _ ∧ _ :=
      h.retainUntil_of_empty hs hcount hnodup hpos hlast
    exact ⟨s, hempty.1, hempty.2.retained hnot h⟩
  · have hlast : (s.end' c).idx = s.capacity := by simp [end', hnot, hcount]
    have hon (n : ℕ) (t : Core K V) (_ : Pruned c keep s n t) (hocc : s.Occupied n) :
        n ≠ (s.end' c).idx := by
      rw [hlast, ← h.size_eq]
      exact hocc.1.ne
    have hrun : Exec.Ensures (s.retain c width fuel keep) _ _ :=
      h.retainUntil_ensures hs hnot hfix hnodup hw hfuel hbig hcount hon
    obtain ⟨⟨seen, t⟩, hret, hseen, hpruned, -⟩ := hrun.returns fun e he => by
      obtain ⟨-, t, -, hne⟩ := he
      exact hne hlast
    simp only at hseen
    exact ⟨t, hseen ▸ hret, hpruned.retained hnot h⟩

theorem retain_keeps_one : ∃ s t : Core ℕ ℕ, Reachable (constantHash .map .fast false) s ∧
    s.count = 3 ∧
    s.retain (constantHash .map .fast false) 32 65536 (fun e => e.value = 20) =
      .ok ((s.occupiedBelow s.capacity).map s.entries.cell, t) ∧
    t.liveEntries = {⟨2, 20⟩} := by
  obtain ⟨s, hs, hcap, hcount, hlive⟩ := exists_three
  obtain ⟨t, hrun, ht⟩ := retain_keeps (by decide) rfl hs (by rw [hlive]; decide)
    (.inr (.inl rfl)) (show s.capacity < 65536 by rw [hcap]; decide) (by decide)
    fun e => e.value = 20
  refine ⟨s, t, hs, hcount, hrun, ?_⟩
  rw [ht.live, hlive]
  decide

/-- A loop that compares with `end()` in each round does the same, unless it
keeps none of the entries. Then `end()` is slot 0 when the last one is gone, and
the loop runs past the table. -/
theorem retainAfresh_keeps_or_faults (hnot : c.type ≠ .index) (hfix : c.bFix = false)
    (hs : Reachable c s) (hnodup : (s.liveEntries.map Entry.key).Nodup) (hw : IsWidth width)
    (hfuel : s.capacity < fuel) (hbig : 2 ^ 16 ≤ fuel) (keep : Entry K V → Bool) :
    ((s.count = 0 ∨ ∃ e ∈ s.liveEntries, keep e = true) →
      ∃ t, s.retainAfresh c width fuel keep =
        .ok ((s.occupiedBelow s.capacity).map s.entries.cell, t) ∧ Retained c keep s t) ∧
    (s.count ≠ 0 → (∀ e ∈ s.liveEntries, keep e = false) →
      s.retainAfresh c width fuel keep = .error .outOfBounds) := by
  have h := hs.inv
  have hpos := h.geometry.capacity_pos
  rw [← h.entriesHeld_eq hnot] at hnodup
  by_cases hcount : s.count = 0
  · have hlast : (s.end' c).idx = 0 := by simp [end', hnot, hcount]
    have hempty : s.retainAfresh c width fuel keep = _ ∧ _ :=
      h.retainUntil_of_empty hs hcount hnodup (by omega) hlast
    exact ⟨fun _ => ⟨s, hempty.1, hempty.2.retained hnot h⟩, fun hne => absurd hcount hne⟩
  · have hlast {t : Core K V} (hcap : t.capacity = s.capacity) :
        (t.end' c).idx = s.capacity ↔ t.count ≠ 0 := by
      by_cases ht : t.count = 0
      · simp [end', hnot, ht, hpos.ne]
      · simp [end', hnot, ht, hcap]
    have hon (n : ℕ) (t : Core K V) (hpruned : Pruned c keep s n t) (hocc : s.Occupied n) :
        n ≠ (t.end' c).idx := by
      obtain ⟨e, hlive⟩ := occupied_iff.mp ((hpruned.occupied_iff_of_le le_rfl).mpr hocc)
      have hheld : t.count ≠ 0 := fun hzero =>
        hpruned.reachable.inv.not_live_of_count hzero n e hlive
      rw [(hlast hpruned.capacity).mpr hheld, ← h.size_eq]
      exact hocc.1.ne
    have hkept {t : Core K V} (hpruned : Pruned c keep s s.capacity t) :
        (t.end' c).idx = s.capacity ↔ ∃ e ∈ s.liveEntries, keep e = true := by
      have ht := hpruned.retained hnot h
      rw [hlast ht.capacity, ht.count, ← Nat.pos_iff_ne_zero, Multiset.card_pos_iff_exists_mem]
      simp only [Multiset.mem_filter]
    have hrun : Exec.Ensures (s.retainAfresh c width fuel keep) _ _ :=
      h.retainUntil_ensures hs hnot hfix hnodup hw hfuel hbig hcount hon
    constructor
    · intro hkeep
      obtain ⟨⟨seen, t⟩, hret, hseen, hpruned, -⟩ := hrun.returns fun e he => by
        obtain ⟨-, t, hpruned, hne⟩ := he
        exact hne ((hkept hpruned).mpr (hkeep.resolve_left hcount))
      simp only at hseen
      exact ⟨t, hseen ▸ hret, hpruned.retained hnot h⟩
    · intro _ hnone
      cases hret : s.retainAfresh c width fuel keep with
      | ok r =>
        obtain ⟨-, hpruned, hend⟩ := hrun.value hret
        obtain ⟨e, he, hkeep⟩ := (hkept hpruned).mp hend
        exact absurd hkeep (by simp [hnone e he])
      | error e => rw [(hrun.fault hret).1]

theorem retainAfresh_keeps_or_faults_none : ∃ s : Core ℕ ℕ,
    Reachable (constantHash .map .fast false) s ∧
    s.retainAfresh (constantHash .map .fast false) 32 65536 (fun _ => false) =
      .error .outOfBounds := by
  obtain ⟨s, hs, hcap, hcount, hlive⟩ := exists_three
  have hloop := retainAfresh_keeps_or_faults (by decide) rfl hs (by rw [hlive]; decide)
    (.inr (.inl rfl)) (show s.capacity < 65536 by rw [hcap]; decide) (by decide) fun _ => false
  exact ⟨s, hs, hloop.2 (by rw [hcount]; decide) fun _ _ => rfl⟩

end Walk

end Core

end SimdHash
