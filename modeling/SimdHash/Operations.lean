import SimdHash.Growth

/-! What one call of `FindEntry`, `Add` or `Remove` does to a container that
satisfies the invariant. -/

namespace SimdHash

open OpenAddressing TagVector

namespace Core

variable {K V : Type} {c : Template K} {s t : Core K V}

section Lookup

/-- A lookup of `key` comes to it. -/
def Met (c : Template K) (s : Core K V) (key : K) : Prop :=
  ∃ n, s.Seen c key n ∧ ∀ m < n, ¬ HasEmpty (s.slots c) (s.windows c (c.hasher key) m)

/-- A lookup of `key` comes to an empty slot first. -/
def Unmet (c : Template K) (s : Core K V) (key : K) : Prop :=
  ∃ n, HasEmpty (s.slots c) (s.windows c (c.hasher key) n) ∧ ∀ m ≤ n, ¬ s.Seen c key m

theorem Met.not_unmet {key : K} (h : Met c s key) : ¬ Unmet c s key := by
  intro hu
  obtain ⟨n, hseen, hbefore⟩ := h
  obtain ⟨n', hempty, hmiss⟩ := hu
  by_cases hlt : n' < n
  · exact hbefore n' hlt hempty
  · exact hmiss n (by omega) hseen

theorem Layout.absent_of_unmet (h : s.Layout c) (hfix : c.bFix = false) {key : K}
    (hu : Unmet c s key) {i : ℕ} {e : Entry K V} (hlive : s.slots c i = .live e) : e.key ≠ key := by
  intro hkey
  obtain ⟨n, hempty, hmiss⟩ := hu
  refine h.chained.absent (P := fun e => e.key = key) hempty (fun m hm hholds => ?_) hlive
    (by rw [hkey]) hkey
  exact hmiss m hm ((seen_iff hfix).mpr hholds)

inductive Looked (c : Template K) (s : Core K V) (key : K) : Option ℕ → Prop
  | found {i : ℕ} {e : Entry K V} (hmet : Met c s key) (hlive : s.slots c i = .live e)
      (hkey : e.key = key) : Looked c s key (some (s.ref c i))
  | absent (hunmet : Unmet c s key) : Looked c s key none

/-- A lookup runs out of fuel where no window shows the key or has an empty slot. -/
def LookupFault (c : Template K) (s : Core K V) (fuel : ℕ) (key : K) (e : Fault) : Prop :=
  e = .timeout ∧ (fuel < 2 ^ 16 ∨ ∀ n < fuel,
    ¬ HasEmpty (s.slots c) (s.windows c (c.hasher key) n) ∧ ¬ s.Seen c key n)

variable [DecidableEq K] {fuel : ℕ}

theorem Layout.looked_ensures (h : s.Layout c) (key : K) :
    Exec.Ensures (s.findEntry c fuel key) (Looked c s key) (LookupFault c s fuel key) := by
  refine (h.findEntry_ensures key).imp ?_ fun e he => he
  intro r hr
  obtain ⟨n, hbefore, hn⟩ := hr
  cases r with
  | some r =>
    obtain ⟨hseen, i, -, e, hlive, hkey, rfl⟩ := hn
    exact .found ⟨n, hseen, fun m hm => (hbefore m hm).1⟩ hlive hkey
  | none =>
    refine .absent ⟨n, hn.1, fun m hm => ?_⟩
    rcases Nat.lt_or_eq_of_le hm with hlt | rfl
    · exact (hbefore m hlt).2
    · exact hn.2

/-- Without the broken cascade a lookup that returns has the right answer. -/
theorem Layout.findEntry_value (h : s.Layout c) (hfix : c.bFix = false) {key : K} {r : Option ℕ}
    (hrun : s.findEntry c fuel key = .ok r) :
    (∃ i e, s.slots c i = .live e ∧ e.key = key ∧ r = some (s.ref c i)) ∨
      r = none ∧ ∀ i e, s.slots c i = .live e → e.key ≠ key := by
  cases (h.looked_ensures key).value hrun with
  | found hmet hlive hkey => exact .inl ⟨_, _, hlive, hkey, rfl⟩
  | absent hunmet => exact .inr ⟨rfl, fun i e hlive => h.absent_of_unmet hfix hunmet hlive⟩

end Lookup

section Slot

variable {bUnique : Bool} {key : K} {i : ℕ}

theorem FreeSlot.lt_size (h : s.FreeSlot c bUnique key i) : i < s.tags.size := by
  obtain ⟨n, -, hmem, -⟩ := h
  exact hmem.2.2

theorem FreeSlot.not_live (h : s.FreeSlot c bUnique key i) (e : Entry K V) :
    s.slots c i ≠ .live e := by
  obtain ⟨n, -, -, hfree, -⟩ := h
  exact hfree e

theorem FreeSlot.reached (h : s.FreeSlot c bUnique key i) :
    Reached (s.slots c) (s.windows c (c.hasher key)) i := by
  obtain ⟨n, hbefore, hmem, -⟩ := h
  exact ⟨n, hmem, fun m hm he => hbefore m hm he.hasFree⟩

end Slot

section Insert

variable {fuel : ℕ}

/-- The dense array of an `Index`, extended by a page when it is full. -/
def paged (c : Template K) (s : Core K V) : Core K V :=
  if c.type = .index ∧ s.count = s.entries.size then
    { s with entries := { s.entries with size := s.count + pageSize } }
  else s

/-- The entry that an insertion writes. A `Set` and an `Index` leave the value
as they find it. -/
def newEntry (c : Template K) (s : Core K V) (i : ℕ) (key : K) (value : V) : Entry K V :=
  match c.type with
  | .map => ⟨key, value⟩
  | .set => { s.entries.cell i with key }
  | .index => { s.entries.cell s.count with key }

theorem newEntry_key (i : ℕ) (key : K) (value : V) : (newEntry c s i key value).key = key := by
  rw [newEntry]
  split <;> rfl

theorem newEntry_value (hmap : c.type = .map) (i : ℕ) (key : K) (value : V) :
    newEntry c s i key value = ⟨key, value⟩ := by
  rw [newEntry, hmap]

theorem paged_sameSettings : SameSettings s (paged c s) := by
  rw [paged]
  split_ifs <;> exact ⟨⟨rfl, rfl, rfl, rfl⟩, rfl, rfl⟩

theorem Inv.paged (h : s.Inv c) : (Core.paged c s).Inv c := by
  rw [Core.paged]
  split_ifs with hfull
  · have hshape : SameShape s { s with entries := { s.entries with size := s.count + pageSize } } :=
      ⟨rfl, rfl, rfl, rfl⟩
    have hslots : slots c { s with entries := { s.entries with size := s.count + pageSize } } =
        s.slots c := slots_congr rfl rfl rfl
    exact
      { hshape.table h.toTable h.valid with
        entries_size := fun hx => absurd hfull.1 hx
        realIndex_size := h.realIndex_size
        index_count := fun _ => Nat.le_add_right _ _
        index_page := fun hx => (Nat.dvd_add_right (hfull.2 ▸ h.index_page hx)).mpr dvd_rfl
        index_refs := h.index_refs
        tagged := h.tagged
        chained := by rw [hslots, hshape.windows_eq]; exact h.chained
        count_eq := h.count_eq
        factor_min := h.factor_min
        factor_max := h.factor_max
        limit_eq := h.limit_eq }
  · exact h

theorem slots_paged : (paged c s).slots c = s.slots c := by
  rw [paged]
  split_ifs
  · exact slots_congr rfl rfl rfl
  · rfl

theorem paged_eq (s : Core K V) : paged c s = { s with entries := (paged c s).entries } := by
  rw [paged]
  split_ifs <;> rfl

theorem paged_cell (s : Core K V) : (paged c s).entries.cell = s.entries.cell := by
  rw [paged]
  split_ifs <;> rfl

theorem paged_tags (s : Core K V) : (paged c s).tags = s.tags := by
  rw [paged_eq]

theorem paged_count (s : Core K V) : (paged c s).count = s.count := by
  rw [paged_eq]

theorem paged_read (h : s.Inv c) (ht : c.type = .index) :
    (if s.count = s.entries.size then EntryArray.adjustSize c.bDebug s.entries (s.count + 1)
      else .ok s.entries) = .ok (paged c s).entries ∧ s.count < (paged c s).entries.size := by
  by_cases hfull : s.count = s.entries.size
  · have hpage := h.index_page ht
    have hmod : (s.count + 1) % pageSize = 1 := by
      rw [hfull]
      obtain ⟨pages, hpages⟩ := hpage
      rw [hpages, Nat.mul_add_mod]
      decide
    have hsize : s.count + 1 + (pageSize - 1) = s.count + pageSize := rfl
    have hgt : s.count + pageSize > s.entries.size := by
      rw [hfull]
      exact Nat.lt_add_of_pos_right (by decide)
    rw [if_pos hfull, EntryArray.adjustSize]
    simp only [hmod, ne_eq, one_ne_zero, not_false_eq_true, if_true, hsize,
      Exec.assert_of _ hgt, Exec.ok_bind]
    have hpaged : (paged c s).entries = { s.entries with size := s.count + pageSize } := by
      rw [paged, if_pos ⟨ht, hfull⟩]
    rw [hpaged]
    exact ⟨rfl, Nat.lt_add_of_pos_right (by decide)⟩
  · have hle := h.index_count ht
    rw [if_neg hfull, paged, if_neg (by simp [hfull])]
    exact ⟨rfl, by omega⟩

theorem fillSlot_eq (h : s.Inv c) {i : ℕ} (hi : i < s.tags.size) (key : K) (value : V) :
    s.fillSlot c i key value = .ok (placed c (paged c s) i (newEntry c s i key value)) := by
  have he (ht : c.type ≠ .index) : i < s.entries.size := by
    rwa [h.entries_size ht, ← h.size_eq]
  have hr (ht : c.type = .index) : i < s.realIndex.size := by
    rwa [h.realIndex_size ht, ← h.size_eq]
  cases ht : c.type with
  | map =>
    have hpaged : paged c s = s := by simp [paged, ht]
    simp [fillSlot, ht, hi, Block.write_of_lt, he, newEntry, placed, hpaged]
  | set =>
    have hpaged : paged c s = s := by simp [paged, ht]
    simp [fillSlot, ht, hi, Block.write_of_lt, Block.read_of_lt, he, newEntry, placed, hpaged]
  | index =>
    obtain ⟨hread, hlt⟩ := paged_read h ht
    have hcell : (paged c s).entries.cell = s.entries.cell := paged_cell s
    have hpaged : paged c s = { s with entries := (paged c s).entries } := paged_eq s
    have hstate : { s with
        tags := s.tags.set i (hashToTag (c.hasher key))
        realIndex := s.realIndex.set i s.count
        entries := (paged c s).entries.set s.count { s.entries.cell s.count with key }
        count := s.count + 1 } = placed c (paged c s) i (newEntry c s i key value) := by
      rw [hpaged]
      simp [placed, ht, newEntry]
    simp only [fillSlot, ht, Block.write_of_lt hi, Block.write_of_lt (hr ht), Exec.ok_bind]
    by_cases hfull : s.count = s.entries.size
    · rw [if_pos hfull] at hread
      simp only [if_pos hfull, hread, Block.read_of_lt hlt, Block.write_of_lt hlt, hcell,
        Exec.ok_bind, hstate]
    · have hsame : paged c s = s := by rw [paged, if_neg (by simp [hfull])]
      rw [hsame] at hlt hstate
      simp only [if_neg hfull, Block.read_of_lt hlt, Block.write_of_lt hlt, Exec.ok_bind, hsame,
        hstate]

theorem insert_eq [DecidableEq K] (h : s.Inv c) {i : ℕ} (hi : i < s.tags.size) (key : K)
    (value : V) :
    s.insert c fuel i key value =
      if s.count + 1 = s.countGrowthLimit then
        (placed c (paged c s) i (newEntry c s i key value)).resize c fuel (s.capacity + 1)
      else .ok (placed c (paged c s) i (newEntry c s i key value)) := by
  have hsettings : SameSettings s (paged c s) := paged_sameSettings
  have hcount : (paged c s).count = s.count := paged_count s
  rw [insert, fillSlot_eq h hi, Exec.ok_bind, ← hcount, ← hsettings.limit,
    ← hsettings.capacity]
  rfl

structure Inserted (c : Template K) (s : Core K V) (i : ℕ) (key : K) (value : V) (t : Core K V) :
    Prop extends Inv c t where
  held : ∃ e, e.key = key ∧ (c.type = .map → e.value = value) ∧
    t.entriesHeld c = e ::ₘ s.entriesHeld c
  count : t.count = s.count + 1
  factor : t.maxLoadFactor = s.maxLoadFactor
  capacity : t.capacity = if s.count + 1 = s.countGrowthLimit then
    max s.capacity (adjustCapacity c.mode (s.capacity + 1)) else s.capacity
  dense : c.type = .index → (t.entries.cell s.count).key = key ∧
    ∀ j < s.count, t.entries.cell j = s.entries.cell j
  clean : s.tags.Clean → t.tags.Clean
  slots : s.count + 1 ≠ s.countGrowthLimit →
    ∃ e, e.key = key ∧ t.slots c = Function.update (s.slots c) i (.live e)

theorem Inv.placed_paged (h : s.Inv c) {i : ℕ} {key : K} (hi : i < s.tags.size)
    (hfree : ∀ e, s.slots c i ≠ .live e)
    (hreach : Reached (s.slots c) (s.windows c (c.hasher key)) i) (value : V) :
    (Core.placed c (Core.paged c s) i (newEntry c s i key value)).Inv c := by
  have hslots : (Core.paged c s).slots c = s.slots c := slots_paged
  have hsettings : SameSettings s (Core.paged c s) := paged_sameSettings
  refine h.paged.placed (paged_tags (c := c) s ▸ hi) (hslots.symm ▸ hfree) ?_ ?_
  · rw [hslots, hsettings.windows_eq, newEntry_key]
    exact hreach
  · intro ht
    rw [paged_count]
    exact (paged_read h ht).2

theorem Inv.insert_ensures [DecidableEq K] (h : s.Inv c) {i : ℕ} {key : K} (hi : i < s.tags.size)
    (hfree : ∀ e, s.slots c i ≠ .live e)
    (hreach : Reached (s.slots c) (s.windows c (c.hasher key)) i) (value : V) :
    Exec.Ensures (s.insert c fuel i key value) (Inserted c s i key value)
      (fun e => s.count + 1 = s.countGrowthLimit ∧
        ResizeFault c fuel (s.capacity + 1) (s.count + 1) e) := by
  have hsettings : SameSettings s (Core.paged c s) := paged_sameSettings
  have hcount : (Core.paged c s).count = s.count := paged_count s
  have htags : (Core.paged c s).tags = s.tags := paged_tags s
  have hcell : (Core.paged c s).entries.cell = s.entries.cell := paged_cell s
  have hkey := newEntry_key (c := c) (s := s) i key value
  set e := newEntry c s i key value
  set u := Core.placed c (Core.paged c s) i e with hu
  have hslots : (Core.paged c s).slots c = s.slots c := slots_paged
  have hi' : i < (Core.paged c s).tags.size := htags.symm ▸ hi
  have hfree' : ∀ e, (Core.paged c s).slots c i ≠ .live e := hslots.symm ▸ hfree
  have hinv : u.Inv c := h.placed_paged hi hfree hreach value
  have hheld : u.entriesHeld c = e ::ₘ s.entriesHeld c := by
    rw [hu, h.paged.entriesHeld_placed hi' hfree', entriesHeld, entriesHeld, hslots, htags]
  have hdense (ht : c.type = .index) : (u.entries.cell s.count).key = key ∧
      ∀ j < s.count, u.entries.cell j = s.entries.cell j := by
    simp only [hu, Core.placed, ht, if_true, hcount, Block.set_cell, hcell]
    refine ⟨by rw [Function.update_self, hkey], fun j hj => Function.update_of_ne hj.ne _ _⟩
  have hclean (hs : s.tags.Clean) : u.tags.Clean := by
    refine TagArray.Clean.set ?_ (hashToTag_lt _)
    rwa [htags]
  have huCount : u.count = s.count + 1 := congrArg (· + 1) hcount
  have hslotsU : u.slots c = Function.update (s.slots c) i (.live e) := by
    rw [hu, h.paged.slots_placed hi', hslots]
  rw [insert_eq h hi]
  by_cases hlimit : s.count + 1 = s.countGrowthLimit
  · rw [if_pos hlimit]
    have hcapacity : u.capacity = s.capacity := hsettings.capacity
    refine (hinv.resize_ensures (s.capacity + 1)).imp ?_ ?_
    · intro t ht
      have hentries (hx : c.type = .index) : t.entries = u.entries := ht.dense hx
      exact
        { ht.toInv with
          held := ⟨e, hkey, fun hm => by simp [e, newEntry_value hm], ht.held.trans hheld⟩
          count := ht.count.trans huCount
          factor := ht.factor.trans hsettings.factor
          capacity := by rw [if_pos hlimit, ht.capacity, hcapacity]
          dense := fun hx => by rw [hentries hx]; exact hdense hx
          clean := fun hs => ht.clean (hclean hs)
          slots := fun hne => absurd hlimit hne }
    · intro f hf
      exact ⟨hlimit, huCount ▸ hf⟩
  · rw [if_neg hlimit]
    exact
      { hinv with
        held := ⟨e, hkey, fun hm => by simp [e, newEntry_value hm], hheld⟩
        count := huCount
        factor := hsettings.factor
        capacity := by rw [if_neg hlimit]; exact hsettings.capacity
        dense := hdense
        clean := hclean
        slots := fun _ => ⟨e, hkey, hslotsU⟩ }

end Insert

section Update

theorem Inv.update_eq (h : s.Inv c) {i : ℕ} {e : Entry K V} (value : V) (hlive : s.slots c i = .live e) :
    s.update c (s.ref c i) value =
      .ok (if c.type = .map then Core.revalued s i { e with value } else s) := by
  by_cases hmap : c.type = .map
  · have hnot : c.type ≠ .index := by simp [hmap]
    obtain ⟨hi, -, hrec⟩ := slots_eq_live.mp hlive
    have he : i < s.entries.size := by rwa [h.entries_size hnot, ← h.size_eq]
    have href : s.ref c i = i := by rw [ref, if_neg hnot]
    have hcell : s.entries.cell i = e := by rw [← hrec, record, href]
    rw [update, if_pos hmap, if_pos hmap, href, Block.read_of_lt he, Exec.ok_bind,
      Block.write_of_lt he, hcell]
    rfl
  · rw [update, if_neg hmap, if_neg hmap]

end Update

section Add

variable [DecidableEq K] {fuel : ℕ} {bUnique bUpdate : Bool} {key : K} {value : V}

/-- What `Add` returns and leaves: a key that was inserted, or one that was found. -/
inductive Added (c : Template K) (s : Core K V) (bUnique bUpdate : Bool) (key : K) (value : V) :
    (Bool × ℕ) × Core K V → Prop
  | inserted {i : ℕ} {t : Core K V} (hslot : s.FreeSlot c bUnique key i)
      (ht : Inserted c s i key value t) : Added c s bUnique bUpdate key value ((true, s.count), t)
  | found {i : ℕ} {e : Entry K V} (hchecked : bUnique = false) (hslot : s.FoundSlot c key i)
      (hlive : s.slots c i = .live e) (hkey : e.key = key) :
      Added c s bUnique bUpdate key value ((false, s.ref c i),
        if bUpdate = true ∧ c.type = .map then revalued s i { e with value } else s)

/-- `Add` runs out of fuel where it looks for a slot, or fails in the growth it triggers. -/
def AddFault (c : Template K) (s : Core K V) (fuel : ℕ) (key : K) (e : Fault) : Prop :=
  e = .timeout ∧ (fuel < 2 ^ 16 ∨
      ∀ n < fuel, ¬ HasFree (s.slots c) (s.windows c (c.hasher key) n)) ∨
    s.count + 1 = s.countGrowthLimit ∧ ResizeFault c fuel (s.capacity + 1) (s.count + 1) e

theorem Inv.add_ensures (h : s.Inv c) :
    Exec.Ensures (s.add c fuel bUnique bUpdate key value)
      (Added c s bUnique bUpdate key value) (AddFault c s fuel key) := by
  have hinsert {i : ℕ} (hslot : s.FreeSlot c bUnique key i) :
      Exec.Ensures (s.insert c fuel i key value >>= fun t => .ok ((true, s.count), t))
        (Added c s bUnique bUpdate key value) (AddFault c s fuel key) := by
    refine Exec.Ensures.bind ((h.insert_ensures hslot.lt_size hslot.not_live hslot.reached
      value).imp (fun t ht => ht) fun e he => .inr he) fun t ht => ?_
    exact .inserted hslot ht
  cases bUnique with
  | true =>
    refine Exec.Ensures.bind ((h.toTable.probeUnique_ensures key).imp (fun r hr => hr) ?_) ?_
    · intro e he
      obtain ⟨rfl, hall⟩ := he
      exact .inl ⟨rfl, .inr hall⟩
    · intro _ hr
      obtain ⟨i, rfl, hslot⟩ := hr
      exact hinsert hslot
  | false =>
    refine Exec.Ensures.bind ((h.probeChecked_ensures key).imp (fun r hr => hr) ?_) ?_
    · rintro e he
      exact .inl he
    · rintro _ (⟨i, rfl, hslot⟩ | ⟨i, rfl, hslot⟩)
      · obtain ⟨-, -, -, -, e, hlive, hkey⟩ := id hslot
        have hfound : Added c s false bUpdate key value ((false, s.ref c i),
            if bUpdate = true ∧ c.type = .map then Core.revalued s i { e with value } else s) :=
          .found rfl hslot hlive hkey
        cases bUpdate with
        | true => simpa [h.update_eq value hlive] using hfound
        | false => simpa using hfound
      · exact hinsert hslot

end Add

section Remove

variable [DecidableEq K] {fuel : ℕ} {key : K}

inductive Removed (c : Template K) (s : Core K V) (key : K) : Bool × Core K V → Prop
  | removed {i : ℕ} {e : Entry K V} (hmet : Met c s key) (hlive : s.slots c i = .live e)
      (hkey : e.key = key) : Removed c s key (true, buried s i)
  | absent (hunmet : Unmet c s key) : Removed c s key (false, s)

theorem Inv.remove_ensures (h : s.Inv c) (hnot : c.type ≠ .index) :
    Exec.Ensures (s.remove c fuel key) (Removed c s key) (LookupFault c s fuel key) := by
  refine (h.looked_ensures key).bind fun r hr => ?_
  cases hr with
  | @found i e hmet hlive hkey =>
    have hlt : i < s.tags.size := slots_lt_size hlive
    have href : s.ref c i = i := by rw [ref, if_neg hnot]
    simp only [href, Block.write_of_lt hlt, Exec.ok_bind]
    exact .removed hmet hlive hkey
  | absent hunmet => exact .absent hunmet

end Remove

end Core

end SimdHash
