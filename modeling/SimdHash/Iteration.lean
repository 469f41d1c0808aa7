import SimdHash.Calls

/-! `ConstIterator`. The iterator reads vectors of 16, 32 or 64 tags, whichever
the build has; an `Index` is walked by its dense array. -/

namespace SimdHash

open BitMask TagVector

structure ConstIterator where
  idx : ℕ
  base : ℕ
  mask : ℕ
  deriving DecidableEq, Repr

namespace Core

variable {K V : Type}

section Walk

variable (c : Template K) (width fuel : ℕ) (s : Core K V)

/-- The bits of `MaskType` for vectors of `width` tags. -/
def maskBits (width : ℕ) : ℕ := if width = 64 then 64 else 32

/-- The mask of the live slots of the vector at `base`. The load has to stay
inside the table, before the sentinels. -/
def calcMask (base : ℕ) : Exec ℕ :=
  if base + width ≤ s.tags.size then
    .ok (TagVector.getNonEmptyMask ((List.range width).map fun o => s.tags.cell (base + o)))
  else .error .outOfBounds

def seek (it : ConstIterator) : Exec ConstIterator :=
  if c.type = .index then .ok { it with idx := it.idx + 1 }
  else
    Exec.loop (fun it =>
      if it.mask ≠ 0 then
        let idx := it.base + trailingZeroCount false (maskBits width) it.mask
        .ok (.inr ⟨idx, it.base, resetLowestSetBit it.mask⟩)
      else do
        let base := it.base + width
        if base ≥ s.tags.size then .ok (.inr ⟨base, base, it.mask⟩)
        else
          let mask ← s.calcMask width base
          .ok (.inl ⟨it.idx, base, mask⟩)) fuel it

def begin : Exec ConstIterator :=
  if c.type ≠ .index ∧ s.count ≠ 0 then do
    let mask ← s.calcMask width 0
    s.seek c width fuel ⟨0, 0, mask⟩
  else .ok ⟨0, 0, 0⟩

def end' : ConstIterator :=
  let idx := if s.count ≠ 0 then s.capacity else 0
  if c.type = .index then ⟨s.count, idx, 0⟩ else ⟨idx, idx, 0⟩

/-- The entries that a range-based `for` comes to. -/
def visited : Exec (List (Entry K V)) := do
  let first ← s.begin c width fuel
  Exec.loop (fun (it, entries) =>
    if it.idx = (s.end' c).idx then .ok (.inr entries)
    else do
      let entry ← s.entries.read it.idx
      let it ← s.seek c width fuel it
      .ok (.inl (it, entries ++ [entry]))) fuel (first, [])

/-- What a range-based `for` whose body is `visit` collects. -/
def forEach {β : Type} (visit : ConstIterator → Exec β) : Exec (List β) := do
  let first ← s.begin c width fuel
  Exec.loop (fun (it, found) =>
    if it.idx = (s.end' c).idx then .ok (.inr found)
    else do
      let b ← visit it
      let it ← s.seek c width fuel it
      .ok (.inl (it, found ++ [b]))) fuel (first, [])

end Walk

variable {c : Template K} {s : Core K V}

theorem visited_eq (width fuel : ℕ) : s.visited c width fuel =
    s.forEach c width fuel fun it => s.entries.read it.idx := rfl

theorem Layout.visited_index (h : s.Layout c) (ht : c.type = .index) (width : ℕ) {fuel : ℕ}
    (hfuel : s.count < fuel) :
    s.visited c width fuel = .ok ((List.range s.count).map s.entries.cell) := by
  have hloop : Exec.Ensures (s.visited c width fuel)
      (fun entries => entries = (List.range s.count).map s.entries.cell) (fun _ => False) := by
    simp only [visited, begin, ht, ne_eq, not_true_eq_false, false_and, if_false, Exec.ok_bind]
    refine Exec.ensures_loop (I := fun n st => n ≤ s.count ∧ st.1.idx = n ∧
      st.2 = (List.range n).map s.entries.cell) ⟨Nat.zero_le _, rfl, rfl⟩ ?_ ?_
    · intro n st _ hI
      obtain ⟨it, entries⟩ := st
      obtain ⟨hle, hidx, hentries⟩ := hI
      simp only at hidx hentries
      have hend : (s.end' c).idx = s.count := by simp [end', ht]
      by_cases hstop : it.idx = (s.end' c).idx
      · have hn : n = s.count := by rw [← hidx, hstop, hend]
        simp only [hstop, if_true, Exec.ensures_ok, Sum.elim_inr]
        rw [hentries, hn]
      · have hne : n ≠ s.count := by rwa [← hidx, ← hend]
        have hlt : it.idx < s.entries.size := by
          have := h.index_count ht
          omega
        simp only [hstop, if_false, Block.read_of_lt hlt, seek, ht, if_true, Exec.ok_bind,
          Exec.ensures_ok, Sum.elim_inl]
        refine ⟨by omega, by rw [hidx], ?_⟩
        rw [hentries, hidx, List.range_succ, List.map_append]
        rfl
    · intro st hI
      obtain ⟨hle, -, -⟩ := hI
      omega
  obtain ⟨entries, hrun, rfl⟩ := hloop.returns fun _ => id
  exact hrun

section Vectors

def IsWidth (width : ℕ) : Prop := width = 16 ∨ width = 32 ∨ width = 64

theorem IsWidth.dvd_page {width : ℕ} (h : IsWidth width) : width ∣ pageSize := by
  rcases h with rfl | rfl | rfl <;> decide

theorem IsWidth.le_maskBits {width : ℕ} (h : IsWidth width) : width ≤ maskBits width := by
  rcases h with rfl | rfl | rfl <;> decide

def Occupied (s : Core K V) (i : ℕ) : Prop := i < s.tags.size ∧ s.tags.cell i < 0x80

instance (s : Core K V) : DecidablePred s.Occupied := fun i =>
  inferInstanceAs (Decidable (i < s.tags.size ∧ s.tags.cell i < 0x80))

def occupiedBelow (s : Core K V) (n : ℕ) : List ℕ := (List.range n).filter s.Occupied

/-- The mask of an iterator at `base` that is yet to come to the slots from `n` on. -/
structure Ahead (s : Core K V) (width n : ℕ) (it : ConstIterator) : Prop where
  aligned : width ∣ it.base
  inside : it.base + width ≤ s.tags.size
  le : n ≤ it.base + width
  mask_lt : it.mask < 2 ^ width
  bit : ∀ o, it.mask.testBit o = true ↔ o < width ∧ s.Occupied (it.base + o) ∧ n ≤ it.base + o

/-- The iterator is at the end or at a slot that holds an entry. -/
structure AtSlot (s : Core K V) (width : ℕ) (it : ConstIterator) : Prop where
  le : it.idx ≤ s.tags.size
  base_le : it.base ≤ it.idx
  occupied : it.idx < s.tags.size → s.Occupied it.idx
  ahead : it.idx < s.tags.size → s.Ahead width (it.idx + 1) it

theorem occupiedBelow_skip {n m : ℕ} (hnm : n ≤ m) (h : ∀ i, n ≤ i → i < m → ¬ s.Occupied i) :
    s.occupiedBelow m = s.occupiedBelow n := by
  induction m, hnm using Nat.le_induction with
  | base => rfl
  | succ m hle ih =>
    have hfree : ¬ s.Occupied m := h m hle (Nat.lt_succ_self m)
    rw [occupiedBelow, List.range_succ, List.filter_append, List.filter_singleton]
    simpa [hfree, occupiedBelow] using ih fun i hi hlt => h i hi (by omega)

theorem occupiedBelow_succ {n : ℕ} (h : s.Occupied n) :
    s.occupiedBelow (n + 1) = s.occupiedBelow n ++ [n] := by
  rw [occupiedBelow, List.range_succ, List.filter_append, List.filter_singleton]
  simp [h, occupiedBelow]

theorem calcMask_ahead {width base n : ℕ} (hbase : width ∣ base) (hinside : base + width ≤ s.tags.size)
    (hn : n ≤ base) (idx : ℕ) :
    ∃ mask, s.calcMask width base = .ok mask ∧ s.Ahead width n ⟨idx, base, mask⟩ := by
  refine ⟨_, if_pos hinside, hbase, hinside, by show n ≤ base + width; omega, ?_, ?_⟩
  · have h := movemask_lt ((((List.range width).map fun o => s.tags.cell (base + o)).map
      fun tag => zero == empty &&& tag))
    simpa [getNonEmptyMask] using h
  · intro o
    rw [getNonEmptyMask, testBit_movemask, List.map_map, List.getD_eq_getElem?_getD,
      List.getElem?_map]
    by_cases ho : o < width
    · have hlt : base + o < s.tags.size := by omega
      have htag := land_empty_eq_zero (s.tags.cell (base + o))
      rw [UInt8.and_comm] at htag
      have hle : n ≤ base + o := by omega
      simp only [ho, Occupied, hlt, hle, ← htag, List.getElem?_range, Option.map_some,
        Function.comp_apply, Option.getD_some, beq_iff_eq, true_and, and_true]
      exact eq_comm
    · simp [ho]

theorem Ahead.clear_lowest {width n o : ℕ} {it : ConstIterator} (h : s.Ahead width n it)
    (hlow : IsLowest it.mask o) :
    s.Ahead width (it.base + o + 1) ⟨it.base + o, it.base, resetLowestSetBit it.mask⟩ := by
  obtain ⟨ho, -, hle⟩ := (h.bit o).mp hlow.1
  refine ⟨h.aligned, h.inside, by show it.base + o + 1 ≤ it.base + width; omega,
    Nat.and_le_left.trans_lt h.mask_lt, fun j => ?_⟩
  rw [resetLowestSetBit, hlow.testBit_land_pred j, h.bit j]
  show (_ ∧ _ ∧ _) ∧ _ ↔ j < width ∧ s.Occupied (it.base + j) ∧ it.base + o + 1 ≤ it.base + j
  constructor
  · intro hset
    obtain ⟨⟨hj, hjocc, hjn⟩, hne⟩ := hset
    have hjo : ¬ j < o := by
      intro hlt
      have hbit := (h.bit j).mpr ⟨hj, hjocc, hjn⟩
      exact absurd ((hlow.2 j hlt).symm.trans hbit) (by simp)
    exact ⟨hj, hjocc, by omega⟩
  · intro hset
    obtain ⟨hj, hjocc, hjo⟩ := hset
    exact ⟨⟨hj, hjocc, by omega⟩, by omega⟩

/-- The slots that a vector shows to hold nothing are passed over. -/
theorem Ahead.skip {width n m : ℕ} {it : ConstIterator} (h : s.Ahead width n it)
    (hskip : ∀ i, n ≤ i → i < it.base → ¬ s.Occupied i)
    (hclear : ∀ o < m, it.mask.testBit o = false) (hm : m ≤ width) :
    ∀ i, n ≤ i → i < it.base + m → ¬ s.Occupied i := by
  intro i hi hlt hbad
  by_cases hi' : i < it.base
  · exact hskip i hi hi' hbad
  · obtain ⟨j, rfl⟩ := Nat.exists_eq_add_of_le (not_lt.mp hi')
    have hset := (h.bit j).mpr ⟨by omega, hbad, hi⟩
    exact absurd ((hclear j (by omega)).symm.trans hset) (by simp)

theorem next_inside {width base size : ℕ} (hbase : width ∣ base) (hsize : width ∣ size)
    (hlt : base < size) : base + width ≤ size := by
  obtain ⟨a, rfl⟩ := hbase
  obtain ⟨b, rfl⟩ := hsize
  have hab : a < b := Nat.lt_of_mul_lt_mul_left hlt
  calc width * a + width = width * (a + 1) := by ring
    _ ≤ width * b := Nat.mul_le_mul_left width hab

theorem seek_ensures (hnot : c.type ≠ .index) {width fuel n : ℕ} (hw : IsWidth width)
    (hsize : width ∣ s.tags.size) (hfuel : s.tags.size ≤ fuel) {it : ConstIterator}
    (h : s.Ahead width n it) (hn : it.base ≤ n) :
    Exec.Ensures (s.seek c width fuel it)
      (fun it' => n ≤ it'.idx ∧ (∀ i, n ≤ i → i < it'.idx → ¬ s.Occupied i) ∧ s.AtSlot width it')
      (fun _ => False) := by
  have hpos : 0 < width := by
    rcases hw with rfl | rfl | rfl <;> decide
  rw [seek, if_neg hnot]
  refine Exec.ensures_loop (I := fun k it => k ≤ it.base ∧ s.Ahead width n it ∧
    ∀ i, n ≤ i → i < it.base → ¬ s.Occupied i) ⟨Nat.zero_le _, h, fun i hi hlt => by omega⟩ ?_ ?_
  · intro k it _ hI
    obtain ⟨hk, h, hskip⟩ := hI
    by_cases hm : it.mask ≠ 0
    · have hbits : it.mask < 2 ^ maskBits width :=
        h.mask_lt.trans_le (Nat.pow_le_pow_right (by decide) hw.le_maskBits)
      have hlow : IsLowest it.mask (trailingZeroCount false (maskBits width) it.mask) := by
        simpa [trailingZeroCount] using tzcnt_isLowest hm hbits
      set o := trailingZeroCount false (maskBits width) it.mask
      obtain ⟨ho, hocc, hle⟩ := (h.bit o).mp hlow.1
      simp only [if_pos hm, Exec.ensures_ok, Sum.elim_inr]
      exact ⟨hle, h.skip hskip hlow.2 ho.le, hocc.1.le, Nat.le_add_right _ _, fun _ => hocc,
        fun _ => h.clear_lowest hlow⟩
    · have hzero : it.mask = 0 := not_not.mp hm
      have hskip' := h.skip hskip (fun o _ => by simp [hzero]) le_rfl
      simp only [if_neg hm]
      by_cases hend : it.base + width ≥ s.tags.size
      · have hlast : it.base + width = s.tags.size := le_antisymm h.inside hend
        simp only [if_pos hend, Exec.ensures_ok, Sum.elim_inr]
        exact ⟨h.le, hskip', hlast.le, le_rfl, fun hlt => absurd hlt (not_lt.mpr hend),
          fun hlt => absurd hlt (not_lt.mpr hend)⟩
      · have haligned : width ∣ it.base + width := h.aligned.add dvd_rfl
        have hinside := next_inside haligned hsize (not_le.mp hend)
        obtain ⟨mask, hmask, hahead⟩ := calcMask_ahead haligned hinside h.le it.idx
        simp only [if_neg hend, hmask, Exec.ok_bind, Exec.ensures_ok, Sum.elim_inl]
        exact ⟨by omega, hahead, hskip'⟩
  · intro it hI
    obtain ⟨hk, h, -⟩ := hI
    have := h.inside
    omega

theorem occupied_iff {i : ℕ} : s.Occupied i ↔ ∃ e, s.slots c i = .live e := by
  constructor
  · intro hi
    exact ⟨_, slots_eq_live.mpr ⟨hi.1, hi.2, rfl⟩⟩
  · intro hi
    obtain ⟨e, hlive⟩ := hi
    obtain ⟨hlt, htag, -⟩ := slots_eq_live.mp hlive
    exact ⟨hlt, htag⟩

theorem Inv.length_occupied (h : s.Inv c) : (s.occupiedBelow s.tags.size).length = s.count := by
  classical
  rw [h.count_eq, entriesHeld, OpenAddressing.card_content]
  simp only [← occupied_iff]
  rfl

theorem Inv.begin_ensures (h : s.Inv c) (hnot : c.type ≠ .index) {width fuel : ℕ}
    (hw : IsWidth width) (hfuel : s.tags.size ≤ fuel) (hcount : s.count ≠ 0) :
    Exec.Ensures (s.begin c width fuel)
      (fun it => (∀ i < it.idx, ¬ s.Occupied i) ∧ s.AtSlot width it) (fun _ => False) := by
  have hsize : width ∣ s.tags.size := by
    rw [h.size_eq]
    exact hw.dvd_page.trans h.geometry.isCapacity.page
  have hpage : width ≤ pageSize := Nat.le_of_dvd (by decide) hw.dvd_page
  have hmin : pageSize ≤ s.tags.size := h.size_eq ▸ h.geometry.isCapacity.min_le
  obtain ⟨mask, hmask, hahead⟩ :=
    calcMask_ahead (s := s) (dvd_zero width) (by omega) (Nat.zero_le 0) 0
  rw [begin, if_pos ⟨hnot, hcount⟩, hmask, Exec.ok_bind]
  refine (seek_ensures hnot hw hsize hfuel hahead le_rfl).mono fun it hit => ?_
  exact ⟨fun i hi => hit.2.1 i (Nat.zero_le i) hi, hit.2.2⟩

/-- A range-based `for` over a `Map` or `Set` comes to the slots that hold an
entry, in their order. -/
theorem Inv.forEach_eq (h : s.Inv c) (hnot : c.type ≠ .index) {width fuel : ℕ} (hw : IsWidth width)
    (hfuel : s.tags.size < fuel) {β : Type} {visit : ConstIterator → Exec β} {f : ℕ → β}
    (hvisit : ∀ it, s.Occupied it.idx → visit it = .ok (f it.idx)) :
    s.forEach c width fuel visit = .ok ((s.occupiedBelow s.tags.size).map f) := by
  by_cases hcount : s.count = 0
  · have hnone : s.occupiedBelow s.tags.size = [] :=
      List.length_eq_zero_iff.mp (h.length_occupied.trans hcount)
    obtain ⟨fuel, rfl⟩ : ∃ n, fuel = n + 1 := ⟨fuel - 1, by omega⟩
    simp [forEach, begin, end', hcount, hnone, hnot, Exec.loop]
  have hsize : width ∣ s.tags.size := by
    rw [h.size_eq]
    exact hw.dvd_page.trans h.geometry.isCapacity.page
  have hend : (s.end' c).idx = s.tags.size := by
    rw [h.size_eq]
    simp [end', hnot, hcount]
  have hrun : Exec.Ensures (s.forEach c width fuel visit)
      (fun found => found = (s.occupiedBelow s.tags.size).map f) (fun _ => False) := by
    refine (h.begin_ensures hnot hw hfuel.le hcount).bind fun first hfirst => ?_
    refine Exec.ensures_loop (I := fun k (st : ConstIterator × List β) => k ≤ st.1.idx ∧
      s.AtSlot width st.1 ∧ st.2 = (s.occupiedBelow st.1.idx).map f) ?_ ?_ ?_
    · refine ⟨Nat.zero_le _, hfirst.2, ?_⟩
      rw [occupiedBelow_skip (Nat.zero_le _) fun i _ hi => hfirst.1 i hi]
      rfl
    · intro k st _ hI
      obtain ⟨it, found⟩ := st
      obtain ⟨hk, hat, hfound⟩ := hI
      simp only at hk hat hfound
      by_cases hstop : it.idx = (s.end' c).idx
      · simp only [if_pos hstop, Exec.ensures_ok, Sum.elim_inr]
        rw [hfound, hstop, hend]
      · have hlt : it.idx < s.tags.size := lt_of_le_of_ne hat.le (hend ▸ hstop)
        have hocc := hat.occupied hlt
        simp only [if_neg hstop, hvisit it hocc, Exec.ok_bind]
        refine (seek_ensures hnot hw hsize hfuel.le (hat.ahead hlt)
          (hat.base_le.trans (Nat.le_succ _))).bind fun it' hit' => ?_
        obtain ⟨hle, hskip, hat'⟩ := hit'
        simp only [Exec.ensures_ok, Sum.elim_inl]
        refine ⟨by omega, hat', ?_⟩
        rw [hfound, occupiedBelow_skip hle hskip, occupiedBelow_succ hocc, List.map_append]
        rfl
    · intro st hI
      have := hI.1
      have := hI.2.1.le
      omega
  obtain ⟨found, hfound, rfl⟩ := hrun.returns fun _ => id
  exact hfound

theorem Inv.visited_eq_map (h : s.Inv c) (hnot : c.type ≠ .index) {width fuel : ℕ}
    (hw : IsWidth width) (hfuel : s.tags.size < fuel) :
    s.visited c width fuel = .ok ((s.occupiedBelow s.tags.size).map s.entries.cell) := by
  rw [visited_eq]
  refine h.forEach_eq hnot hw hfuel fun it hocc => Block.read_of_lt ?_
  rw [h.entries_size hnot, ← h.size_eq]
  exact hocc.1

variable [DecidableEq K]

/-- Iteration over a reachable `Map` or `Set` visits the slots that hold an
entry, each once and in increasing order, whatever the width of the vectors. -/
theorem iteration_visits_entries (hnot : c.type ≠ .index) (hs : Reachable c s) {width fuel : ℕ}
    (hw : IsWidth width) (hfuel : s.capacity < fuel) :
    s.visited c width fuel = .ok ((s.occupiedBelow s.capacity).map s.entries.cell) ∧
    s.forEach c width fuel (fun it => .ok it.idx) = .ok (s.occupiedBelow s.capacity) ∧
    (∀ i, i ∈ s.occupiedBelow s.capacity ↔ i < s.capacity ∧ s.tags.cell i < 0x80) ∧
    (s.occupiedBelow s.capacity).Pairwise (· < ·) ∧
    (s.occupiedBelow s.capacity).length = s.count ∧
    ∃ it, s.begin c width fuel = .ok it ∧ (it.idx = (s.end' c).idx ↔ s.count = 0) := by
  have h := hs.inv
  have hlength := h.length_occupied
  have hsize := h.size_eq
  rw [hsize] at hlength
  refine ⟨?_, ?_, ?_, ?_, hlength, ?_⟩
  · exact hsize ▸ h.visited_eq_map hnot hw (hsize.symm ▸ hfuel)
  · have hslots : s.forEach c width fuel (fun it => .ok it.idx) =
        .ok ((s.occupiedBelow s.tags.size).map id) :=
      h.forEach_eq hnot hw (hsize.symm ▸ hfuel) fun it _ => rfl
    rw [hslots, List.map_id, hsize]
  · intro i
    rw [occupiedBelow, List.mem_filter, List.mem_range, decide_eq_true_iff, Occupied, hsize]
    exact ⟨fun hi => hi.2, fun hi => ⟨hi.1, hi⟩⟩
  · exact List.pairwise_lt_range.filter _
  · by_cases hcount : s.count = 0
    · exact ⟨⟨0, 0, 0⟩, by simp [begin, hcount], iff_of_true (by simp [end', hcount, hnot]) hcount⟩
    · obtain ⟨it, hit, hskip, hat⟩ :=
        (h.begin_ensures hnot hw (hsize.symm ▸ hfuel.le) hcount).returns fun _ => id
      have hend : (s.end' c).idx = s.tags.size := by
        rw [hsize]
        simp [end', hnot, hcount]
      refine ⟨it, hit, iff_of_false (fun heq => ?_) hcount⟩
      rw [hend] at heq
      have hnone := occupiedBelow_skip (Nat.zero_le _) fun i _ hi => hskip i hi
      rw [heq, hsize] at hnone
      rw [hnone] at hlength
      exact hcount hlength.symm

theorem iteration_visits_entries_constantHash : ∃ s : Core ℕ ℕ,
    Reachable (constantHash .map .fast false) s ∧ s.count = 2 ∧
    s.forEach (constantHash .map .fast false) 32 5000 (fun it => .ok it.idx) =
      .ok (s.occupiedBelow 4096) := by
  have hruns : ((after (constantHash .map .fast false) 100 zeroedMemory
      [.add false 1 10, .add false 2 20, .add false 3 30, .remove 2]) >>=
      fun s => .ok (s.count, s.capacity)) = .ok (2, 4096) := by
    decide +kernel
  obtain ⟨s, hafter, hs⟩ := Exec.bind_eq_ok.mp hruns
  simp only [Except.ok.injEq, Prod.mk.injEq] at hs
  obtain ⟨hcount, hcap⟩ := hs
  have hreach : Reachable (constantHash .map .fast false) s := reachable_of_after hafter
  have hvisits := iteration_visits_entries (by decide) hreach (.inr (.inl rfl))
    (show s.capacity < 5000 by rw [hcap]; decide)
  rw [hcap] at hvisits
  exact ⟨s, hreach, hcount, hvisits.2.1⟩

end Vectors

end Core

end SimdHash
