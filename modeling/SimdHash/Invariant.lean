import SimdHash.Coverage
import SimdHash.Search

/-! The invariant of a container and the three ways in which its slots change:
a slot is filled, buried, or given another entry of the same key. -/

namespace SimdHash

open OpenAddressing TagVector

namespace TagArray

variable {ρ : Type} {tags : TagArray} {record record' : ℕ → ρ} {i : ℕ} {tag : UInt8}

/-- No slot is buried. -/
def Clean (tags : TagArray) : Prop := ∀ i < tags.size, tags.cell i ≠ tombstone

theorem Clean.set (h : tags.Clean) (ht : tag < 0x80) : Clean (tags.set i tag) := by
  intro j hj
  by_cases hji : j = i
  · subst j
    intro hbad
    rw [show tag = tombstone by simpa using hbad] at ht
    exact absurd ht (by decide)
  · simpa [hji] using h j hj

theorem Valid.set (h : tags.Valid) (hi : i < tags.size)
    (ht : tag < 0x80 ∨ tag = empty ∨ tag = tombstone) : Valid (tags.set i tag) := by
  constructor
  · intro j hj
    by_cases hji : j = i
    · subst j
      simpa using ht
    · simpa [hji] using h.tag j hj
  · intro j hge hlt
    have hji : j ≠ i := by
      rintro rfl
      exact absurd hi (not_lt.mpr hge)
    simpa [hji] using h.sentinel j hge hlt

theorem slots_set {x : Slot ρ} (hx : slots (tags.set i tag) record' i = x)
    (hrec : ∀ j ≠ i, j < tags.size → tags.cell j < 0x80 → record' j = record j) :
    slots (tags.set i tag) record' = Function.update (tags.slots record) i x := by
  funext j
  by_cases hji : j = i
  · subst j
    rw [hx, Function.update_self]
  · rw [Function.update_of_ne hji]
    simp only [slots, Block.set_size, Block.set_cell, Function.update_of_ne hji]
    split_ifs with h1 h2
    · rw [hrec j hji h1.1 h1.2]
    · rfl
    · rfl

theorem slots_set_live (hi : i < tags.size) (ht : tag < 0x80) {r : ρ} (hr : record' i = r)
    (hrec : ∀ j ≠ i, j < tags.size → tags.cell j < 0x80 → record' j = record j) :
    slots (tags.set i tag) record' = Function.update (tags.slots record) i (.live r) :=
  slots_set (slots_eq_live.mpr ⟨hi, by simpa using ht, hr⟩) hrec

theorem slots_set_tombstone :
    slots (tags.set i tombstone) record = Function.update (tags.slots record) i .tombstone := by
  refine slots_set ?_ fun _ _ _ _ => rfl
  have hlive : ¬ tombstone < 0x80 := by decide
  have hempty : tombstone ≠ empty := by decide
  simp [slots, hlive, hempty]

theorem slots_set_empty (record : ℕ → ρ) (hi : i < tags.size) :
    slots (tags.set i empty) record = Function.update (tags.slots record) i .empty :=
  slots_set (slots_eq_empty.mpr ⟨hi, by simp⟩) fun _ _ _ _ => rfl

theorem fill_valid (tags : TagArray) : tags.fill.Valid := by
  constructor
  · intro j hj
    exact .inr (.inl (if_pos hj))
  · intro j hge hlt
    have hge' : ¬ j < tags.size := not_lt.mpr hge
    exact (if_neg hge').trans (if_pos hlt)

theorem slots_fill {j : ℕ} (hj : j < tags.size) : tags.fill.slots record j = .empty :=
  slots_eq_empty.mpr ⟨hj, if_pos hj⟩

theorem fill_not_live {j : ℕ} (r : ρ) : tags.fill.slots record j ≠ .live r := by
  intro hlive
  have hj : j < tags.size := (slots_eq_live.mp hlive).1
  rw [slots_fill hj] at hlive
  cases hlive

theorem fill_clean (tags : TagArray) : tags.fill.Clean := by
  intro j hj
  rw [show tags.fill.cell j = empty from if_pos hj]
  decide

end TagArray

namespace Core

variable {K V : Type} {c : Template K} {s t : Core K V}

/-- What the index arithmetic of `s` and `t` reads is the same. -/
structure SameShape (s t : Core K V) : Prop where
  capacity : t.capacity = s.capacity
  mask : t.capacityMask = s.capacityMask
  multiplier : t.capacityMultiplier = s.capacityMultiplier
  size : t.tags.size = s.tags.size

theorem SameShape.adjust_eq (h : SameShape s t) : t.adjustTupleIndex c = s.adjustTupleIndex c := by
  funext x
  simp only [adjustTupleIndex, h.capacity, h.mask, h.multiplier]

theorem SameShape.windows_eq (h : SameShape s t) : t.windows c = s.windows c := by
  have hbase (hash : UInt64) (n : ℕ) : t.windowBase c hash n = s.windowBase c hash n := by
    induction n with
    | zero => simp only [windowBase, h.adjust_eq]
    | succ n ih => simp only [windowBase, ih, h.adjust_eq]
  funext hash n
  simp only [windows, TagArray.window, hbase, h.size]

theorem SameShape.table (h : SameShape s t) (hs : s.Table c) (hv : t.tags.Valid) : t.Table c where
  geometry :=
    { isCapacity := h.capacity ▸ hs.geometry.isCapacity
      powerOfTwo := h.capacity ▸ hs.geometry.powerOfTwo
      mask := h.capacity ▸ h.mask ▸ hs.geometry.mask
      multiplier := h.capacity ▸ h.multiplier ▸ hs.geometry.multiplier }
  valid := hv
  size_eq := by rw [h.size, hs.size_eq, h.capacity]

theorem slots_congr (htags : t.tags = s.tags) (hentries : t.entries.cell = s.entries.cell)
    (hreal : t.realIndex.cell = s.realIndex.cell) : t.slots c = s.slots c := by
  have hrecord : t.record c = s.record c := by
    funext i
    simp only [record, ref, hentries, hreal]
  rw [slots, slots, htags, hrecord]

theorem Layout.congr (h : s.Layout c) (hs : SameShape s t) (htags : t.tags = s.tags)
    (hentries : t.entries = s.entries) (hreal : t.realIndex = s.realIndex)
    (hcount : t.count = s.count) : t.Layout c := by
  have hslots : t.slots c = s.slots c := slots_congr htags (by rw [hentries]) (by rw [hreal])
  refine
    { hs.table h.toTable (htags ▸ h.valid) with
      entries_size := hentries ▸ hs.capacity ▸ h.entries_size
      realIndex_size := hreal ▸ hs.capacity ▸ h.realIndex_size
      index_count := hentries ▸ hcount ▸ h.index_count
      index_page := hentries ▸ h.index_page
      index_refs := by rw [htags, hreal, hcount]; exact h.index_refs
      tagged := by rw [hslots, htags]; exact h.tagged
      chained := by rw [hslots, hs.windows_eq]; exact h.chained }

/-- What is set when the capacity is chosen is the same, too. -/
structure SameSettings (s t : Core K V) : Prop extends SameShape s t where
  factor : t.maxLoadFactor = s.maxLoadFactor
  limit : t.countGrowthLimit = s.countGrowthLimit

theorem SameSettings.trans {u : Core K V} (h : SameSettings s t) (h' : SameSettings t u) :
    SameSettings s u where
  capacity := h'.capacity.trans h.capacity
  mask := h'.mask.trans h.mask
  multiplier := h'.multiplier.trans h.multiplier
  size := h'.size.trans h.size
  factor := h'.factor.trans h.factor
  limit := h'.limit.trans h.limit

structure Inv (c : Template K) (s : Core K V) : Prop extends Layout c s where
  count_eq : s.count = (s.entriesHeld c).card
  factor_min : LoadFactor.min ≤ s.maxLoadFactor
  factor_max : s.maxLoadFactor ≤ LoadFactor.max
  limit_eq : s.countGrowthLimit = growthLimit s.capacity s.maxLoadFactor

theorem slots_lt_size {i : ℕ} {e : Entry K V} (h : s.slots c i = .live e) : i < s.tags.size :=
  (slots_eq_live.mp h).1

theorem mem_entriesHeld {e : Entry K V} :
    e ∈ s.entriesHeld c ↔ ∃ i, s.slots c i = .live e := by
  rw [entriesHeld, mem_content]
  constructor
  · intro hmem
    obtain ⟨i, -, hi⟩ := hmem
    exact ⟨i, hi⟩
  · intro hlive
    obtain ⟨i, hi⟩ := hlive
    exact ⟨i, Finset.mem_range.mpr (slots_lt_size hi), hi⟩

theorem exists_entriesHeld {key : K} :
    (∃ e ∈ s.entriesHeld c, e.key = key) ↔ ∃ i e, s.slots c i = .live e ∧ e.key = key := by
  simp only [mem_entriesHeld]
  constructor
  · intro hheld
    obtain ⟨e, ⟨i, hlive⟩, hkey⟩ := hheld
    exact ⟨i, e, hlive, hkey⟩
  · intro hslot
    obtain ⟨i, e, hlive, hkey⟩ := hslot
    exact ⟨e, ⟨i, hlive⟩, hkey⟩

theorem Table.hasEmpty (h : s.Table c) (hclean : s.tags.Clean) {hash : UInt64} {n : ℕ}
    (hfree : HasFree (s.slots c) (s.windows c hash n)) :
    HasEmpty (s.slots c) (s.windows c hash n) := by
  obtain ⟨i, hmem, hi⟩ := hfree
  have hlt : i < s.tags.size := hmem.2.2
  refine ⟨i, hmem, TagArray.slots_eq_empty.mpr ⟨hlt, ?_⟩⟩
  rcases h.valid.tag i hlt with htag | htag | htag
  · exact absurd htag (TagArray.slots_not_live.mp hi hlt)
  · exact htag
  · exact absurd htag (hclean i hlt)

/-- In an `Index` the entries are the first `Count` ones of the dense array. -/
theorem Layout.entriesHeld_index (h : s.Layout c) (ht : c.type = .index) :
    s.entriesHeld c = (Multiset.range s.count).map s.entries.cell := by
  rw [← h.index_refs ht, ← content_map, entriesHeld]
  refine content_congr fun i _ => ?_
  rw [TagArray.slots_map]
  simp only [slots, TagArray.slots, record, ref, if_pos ht]

section Place

/-- `s` with the entry `e` put in slot `i`; an `Index` appends it to the dense
array and points the slot there. -/
def placed (c : Template K) (s : Core K V) (i : ℕ) (e : Entry K V) : Core K V :=
  { s with
    tags := s.tags.set i (hashToTag (c.hasher e.key))
    realIndex := if c.type = .index then s.realIndex.set i s.count else s.realIndex
    entries := s.entries.set (if c.type = .index then s.count else i) e
    count := s.count + 1 }

variable {i : ℕ} {e : Entry K V}

theorem placed_sameShape : SameShape s (placed c s i e) := ⟨rfl, rfl, rfl, rfl⟩

theorem placed_sameSettings : SameSettings s (placed c s i e) := ⟨placed_sameShape, rfl, rfl⟩

theorem Layout.slots_placed (h : s.Layout c) (hi : i < s.tags.size) :
    (placed c s i e).slots c = Function.update (s.slots c) i (.live e) := by
  refine TagArray.slots_set_live hi (hashToTag_lt _) ?_ ?_
  · by_cases ht : c.type = .index <;> simp [record, ref, placed, ht]
  · intro j hji hj hlive
    by_cases ht : c.type = .index
    · have hne : s.realIndex.cell j ≠ s.count := by
        have hlt := h.ref_lt_count ht hj hlive
        rw [ref, if_pos ht] at hlt
        exact hlt.ne
      simp [record, ref, placed, ht, hji, hne]
    · simp [record, ref, placed, ht, hji]

theorem Layout.placed (h : s.Layout c) (hi : i < s.tags.size) (hfree : ∀ e, s.slots c i ≠ .live e)
    (hreach : Reached (s.slots c) (s.windows c (c.hasher e.key)) i)
    (hpage : c.type = .index → s.count < s.entries.size) : (placed c s i e).Layout c := by
  have hslots := h.slots_placed (e := e) hi
  have hshape : SameShape s (Core.placed c s i e) := placed_sameShape
  have htable := hshape.table h.toTable (h.valid.set hi (.inl (hashToTag_lt _)))
  refine { htable with
    entries_size := h.entries_size
    realIndex_size := ?_
    index_count := hpage
    index_page := h.index_page
    index_refs := ?_
    tagged := ?_
    chained := ?_ }
  · intro ht
    simpa [Core.placed, ht] using h.realIndex_size ht
  · intro ht
    have hfree' : ∀ r, s.tags.slots s.realIndex.cell i ≠ .live r := by
      rw [TagArray.slots_not_live]
      exact TagArray.slots_not_live.mp hfree
    have hset : (Core.placed c s i e).tags.slots (Core.placed c s i e).realIndex.cell =
        Function.update (s.tags.slots s.realIndex.cell) i (.live s.count) := by
      refine TagArray.slots_set_live hi (hashToTag_lt _) ?_ ?_
      · simp [Core.placed, ht]
      · intro j hji _ _
        simp [Core.placed, ht, hji]
    rw [hset, hshape.size, content_fill (Finset.mem_range.mpr hi) hfree',
      h.index_refs ht]
    exact (Multiset.range_succ s.count).symm
  · intro j e' hj
    rw [hslots] at hj
    by_cases hji : j = i
    · subst j
      obtain rfl : e = e' := by simpa using hj
      simp [Core.placed]
    · simpa [Core.placed, hji] using h.tagged j e' (by simpa [hji] using hj)
  · rw [hslots, hshape.windows_eq]
    exact h.chained.fill hreach

theorem Layout.entriesHeld_placed (h : s.Layout c) (hi : i < s.tags.size)
    (hfree : ∀ e, s.slots c i ≠ .live e) :
    (Core.placed c s i e).entriesHeld c = e ::ₘ s.entriesHeld c := by
  rw [entriesHeld, h.slots_placed hi]
  exact content_fill (Finset.mem_range.mpr hi) hfree

theorem Inv.placed (h : s.Inv c) (hi : i < s.tags.size) (hfree : ∀ e, s.slots c i ≠ .live e)
    (hreach : Reached (s.slots c) (s.windows c (c.hasher e.key)) i)
    (hpage : c.type = .index → s.count < s.entries.size) : (Core.placed c s i e).Inv c where
  toLayout := h.toLayout.placed hi hfree hreach hpage
  count_eq := by
    rw [h.entriesHeld_placed hi hfree, Multiset.card_cons, ← h.count_eq]
    rfl
  factor_min := h.factor_min
  factor_max := h.factor_max
  limit_eq := h.limit_eq

end Place

section Bury

/-- `s` with slot `i` buried under a tombstone. -/
def buried (s : Core K V) (i : ℕ) : Core K V :=
  { s with tags := s.tags.set i tombstone, count := s.count - 1 }

variable {i : ℕ} {e : Entry K V}

theorem buried_sameShape : SameShape s (buried s i) := ⟨rfl, rfl, rfl, rfl⟩

theorem slots_buried : (buried s i).slots c = Function.update (s.slots c) i .tombstone :=
  TagArray.slots_set_tombstone

theorem entriesHeld_buried (hlive : s.slots c i = .live e) :
    s.entriesHeld c = e ::ₘ (buried s i).entriesHeld c := by
  have hmem : i ∈ Finset.range s.tags.size := Finset.mem_range.mpr (slots_lt_size hlive)
  rw [entriesHeld, content_bury hmem hlive held_tombstone, ← slots_buried]
  rfl

theorem Inv.buried (h : s.Inv c) (ht : c.type ≠ .index) (hlive : s.slots c i = .live e) :
    (Core.buried s i).Inv c := by
  have hi := slots_lt_size hlive
  have hshape : SameShape s (Core.buried s i) := buried_sameShape
  have htable := hshape.table h.toTable (h.valid.set hi (.inr (.inr rfl)))
  refine { htable with
    entries_size := h.entries_size
    realIndex_size := fun hx => absurd hx ht
    index_count := fun hx => absurd hx ht
    index_page := fun hx => absurd hx ht
    index_refs := fun hx => absurd hx ht
    tagged := ?_
    chained := ?_
    count_eq := ?_
    factor_min := h.factor_min
    factor_max := h.factor_max
    limit_eq := h.limit_eq }
  · intro j e' hj
    rw [slots_buried] at hj
    have hji : j ≠ i := by
      rintro rfl
      simp at hj
    simpa [Core.buried, hji] using h.tagged j e' (by simpa [hji] using hj)
  · rw [slots_buried, hshape.windows_eq]
    exact h.chained.bury
  · have hcount := h.count_eq
    rw [entriesHeld_buried hlive, Multiset.card_cons] at hcount
    show s.count - 1 = _
    omega

end Bury

section Revalue

/-- `s` with the entry `e` written over the one of slot `i`. -/
def revalued (s : Core K V) (i : ℕ) (e : Entry K V) : Core K V :=
  { s with entries := s.entries.set i e }

variable {i : ℕ} {e e' : Entry K V}

theorem revalued_sameShape : SameShape s (revalued s i e) := ⟨rfl, rfl, rfl, rfl⟩

theorem slots_revalued (ht : c.type ≠ .index) (e' : Entry K V) (hlive : s.slots c i = .live e) :
    (revalued s i e').slots c = Function.update (s.slots c) i (.live e') := by
  obtain ⟨hi, htag, -⟩ := slots_eq_live.mp hlive
  show s.tags.slots _ = _
  rw [← Block.set_cell_self s.tags i]
  refine TagArray.slots_set_live hi htag ?_ ?_
  · simp [record, ref, revalued, ht]
  · intro j hji _ _
    simp [record, ref, revalued, ht, hji]

theorem entriesHeld_revalued (ht : c.type ≠ .index) (e' : Entry K V)
    (hlive : s.slots c i = .live e) :
    ∃ rest, s.entriesHeld c = e ::ₘ rest ∧ (revalued s i e').entriesHeld c = e' ::ₘ rest := by
  rw [entriesHeld, entriesHeld, slots_revalued ht e' hlive]
  exact content_replace (Finset.mem_range.mpr (slots_lt_size hlive)) hlive

theorem Inv.revalued (h : s.Inv c) (ht : c.type ≠ .index) (hlive : s.slots c i = .live e)
    (hkey : e'.key = e.key) : (Core.revalued s i e').Inv c := by
  have hslots := slots_revalued ht e' hlive
  refine { revalued_sameShape.table h.toTable h.valid with
    entries_size := h.entries_size
    realIndex_size := fun hx => absurd hx ht
    index_count := fun hx => absurd hx ht
    index_page := fun hx => absurd hx ht
    index_refs := fun hx => absurd hx ht
    tagged := ?_
    chained := ?_
    count_eq := ?_
    factor_min := h.factor_min
    factor_max := h.factor_max
    limit_eq := h.limit_eq }
  · intro j e'' hj
    rw [hslots] at hj
    by_cases hji : j = i
    · obtain rfl : e' = e'' := by simpa [hji] using hj
      rw [hkey, hji]
      exact h.tagged i e hlive
    · exact h.tagged j e'' (by simpa [hji] using hj)
  · rw [hslots, revalued_sameShape.windows_eq]
    exact h.chained.fill (hkey ▸ h.chained i e hlive)
  · obtain ⟨rest, hold, hnew⟩ := entriesHeld_revalued ht e' hlive
    rw [hnew, Multiset.card_cons, ← Multiset.card_cons e, ← hold]
    exact h.count_eq

end Revalue

section Emptied

/-- `s` with the table that its capacity asks for, all of it empty. -/
def emptied (s : Core K V) : Core K V :=
  { s with tags := TagArray.fill { s.tags with size := s.capacity }, count := 0 }

theorem slots_emptied {i : ℕ} (e : Entry K V) : (emptied s).slots c i ≠ .live e :=
  TagArray.fill_not_live e

theorem entriesHeld_emptied : (emptied s).entriesHeld c = 0 :=
  content_eq_zero fun _ _ => slots_emptied

theorem Layout.emptied (hg : s.Geometry c)
    (he : c.type ≠ .index → s.entries.size = s.capacity)
    (hr : c.type = .index → s.realIndex.size = s.capacity)
    (hp : c.type = .index → pageSize ∣ s.entries.size) : Layout c (emptied s) where
  geometry := ⟨hg.isCapacity, hg.powerOfTwo, hg.mask, hg.multiplier⟩
  valid := TagArray.fill_valid _
  size_eq := rfl
  entries_size := he
  realIndex_size := hr
  index_count _ := Nat.zero_le _
  index_page := hp
  index_refs _ := content_eq_zero fun _ _ => TagArray.fill_not_live
  tagged _ e hlive := absurd hlive (slots_emptied e)
  chained _ e hlive := absurd hlive (slots_emptied e)

theorem Inv.emptied (hg : s.Geometry c)
    (he : c.type ≠ .index → s.entries.size = s.capacity)
    (hr : c.type = .index → s.realIndex.size = s.capacity)
    (hp : c.type = .index → pageSize ∣ s.entries.size)
    (hmin : LoadFactor.min ≤ s.maxLoadFactor) (hmax : s.maxLoadFactor ≤ LoadFactor.max)
    (hlimit : s.countGrowthLimit = growthLimit s.capacity s.maxLoadFactor) :
    Inv c (Core.emptied s) where
  toLayout := Layout.emptied hg he hr hp
  count_eq := by
    rw [entriesHeld_emptied]
    rfl
  factor_min := hmin
  factor_max := hmax
  limit_eq := hlimit

end Emptied

end Core

end SimdHash
