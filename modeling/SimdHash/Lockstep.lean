import SimdHash.Iteration

/-! Two containers of the same shape, with the same entries in the same slots.
They run in step whatever is left in the cells that are not in use; their modes
may differ where they size and reduce alike. -/

namespace SimdHash

open Exec OpenAddressing TagVector

namespace TagArray

/-- The same tags wherever a scan can look and, with `D`, everywhere. -/
structure Alike (D : Prop) (tags tags' : TagArray) : Prop where
  size : tags'.size = tags.size
  cell : ∀ i < tags.size + TagVector.size, tags'.cell i = tags.cell i
  whole : D → tags' = tags

variable {D : Prop} {tags tags' : TagArray}

theorem Alike.load_eq (h : tags.Alike D tags') (base : ℕ) : tags'.load base = tags.load base := by
  by_cases hb : base < tags.size
  · rw [load_of_lt hb, load_of_lt (h.size.symm ▸ hb), source, source]
    congr 1
    refine List.map_congr_left fun o ho => h.cell _ ?_
    have := List.mem_range.mp ho
    omega
  · rw [load, load, if_neg hb, if_neg (h.size.symm ▸ hb)]

theorem Alike.read_eq (h : tags.Alike D tags') (i : ℕ) :
    Block.read tags' i = Block.read tags i := by
  by_cases hi : i < tags.size
  · rw [Block.read_of_lt hi, Block.read_of_lt (h.size.symm ▸ hi), h.cell i (by omega)]
  · rw [Block.read, Block.read, if_neg hi, if_neg (h.size.symm ▸ hi)]

theorem Alike.set (h : tags.Alike D tags') (i : ℕ) (tag : UInt8) :
    Alike D (Block.set tags i tag) (Block.set tags' i tag) where
  size := h.size
  cell j hj := by
    by_cases hji : j = i
    · simp [hji]
    · simpa [hji] using h.cell j hj
  whole hD := by rw [h.whole hD]

theorem Alike.write (h : tags.Alike D tags') (i : ℕ) (tag : UInt8) :
    Agree (fun a a' => a = Block.set tags i tag ∧ a' = Block.set tags' i tag)
      (Block.write tags i tag) (Block.write tags' i tag) := by
  by_cases hi : i < tags.size
  · rw [Block.write_of_lt hi, Block.write_of_lt (h.size.symm ▸ hi)]
    exact ⟨rfl, rfl⟩
  · rw [Block.write, Block.write, if_neg hi, if_neg (h.size.symm ▸ hi)]
    rfl

theorem alike_fill (hwhole : D → tags'.cell = tags.cell) (size : ℕ) :
    Alike D (fill { tags with size }) (fill { tags' with size }) where
  size := rfl
  cell i hi := by
    by_cases hlt : i < size
    · simp only [fill, if_pos hlt]
    · have hi' : i < size + TagVector.size := hi
      simp only [fill, if_neg hlt, if_pos hi']
  whole hD := by rw [fill, fill, hwhole hD]

end TagArray

/-- What an iterator over the container shows of an entry. -/
def Entry.shown {K V : Type} (c : Template K) (e : Entry K V) : K × Option V :=
  (e.key, if c.type = .map then some e.value else none)

def Entry.Alike {K V : Type} (c : Template K) (D : Prop) (e e' : Entry K V) : Prop :=
  e'.shown c = e.shown c ∧ (D → e' = e)

theorem Entry.Alike.key {K V : Type} {c : Template K} {D : Prop} {e e' : Entry K V}
    (h : Entry.Alike c D e e') : e'.key = e.key :=
  congrArg Prod.fst h.1

/-- The modes that a run cannot tell apart. -/
def Mode.Interchangeable (mode mode' : Mode) : Prop :=
  mode' = mode ∨ mode.isPowerOfTwo ∧ mode'.isPowerOfTwo

abbrev Template.withMode {K : Type} (c : Template K) (mode : Mode) : Template K := { c with mode }

theorem Mode.Interchangeable.adjustCapacity_eq {mode mode' : Mode}
    (h : mode.Interchangeable mode') (size : ℕ) :
    adjustCapacity mode' size = adjustCapacity mode size := by
  rcases h with rfl | ⟨hmode, hmode'⟩
  · rfl
  · rcases hmode with rfl | rfl <;> rcases hmode' with rfl | rfl <;> rfl

theorem Mode.Interchangeable.resizeOnlyEmpty_iff {mode mode' : Mode}
    (h : mode.Interchangeable mode') : mode' = .resizeOnlyEmpty ↔ mode = .resizeOnlyEmpty := by
  rcases h with rfl | ⟨hmode, hmode'⟩
  · rfl
  · rcases hmode with rfl | rfl <;> rcases hmode' with rfl | rfl <;> decide

namespace Core

variable {K V : Type} {c : Template K} {mode : Mode} {D : Prop} {s s' t t' : Core K V}
  {used : ℕ → Prop} {fuel : ℕ}

theorem Geometry.adjust_congr (hmode : c.mode.Interchangeable mode) (h : s.Geometry c)
    (h' : s'.Geometry (c.withMode mode)) (hcapacity : s'.capacity = s.capacity) :
    s'.adjustTupleIndex (c.withMode mode) = s.adjustTupleIndex c := by
  funext x
  rcases hmode with rfl | ⟨hpow, hpow'⟩
  · by_cases hf : c.mode = .fast
    · simp only [adjustTupleIndex, if_pos hf, h.mask hf, h'.mask hf, hcapacity]
    · simp only [adjustTupleIndex, if_neg hf, h.multiplier hf, h'.multiplier hf, hcapacity]
  · rw [h.adjust_eq_mod_of_powerOfTwo hpow, h'.adjust_eq_mod_of_powerOfTwo hpow', hcapacity]

/-- The same shape and tags, and the same entries in the `used` cells; with
`D` the whole arrays are the same. -/
structure Alike (c : Template K) (mode : Mode) (D : Prop) (used : ℕ → Prop) (s s' : Core K V) :
    Prop where
  tags : s.tags.Alike D s'.tags
  adjust : s'.adjustTupleIndex (c.withMode mode) = s.adjustTupleIndex c
  capacity : s'.capacity = s.capacity
  factor : s'.maxLoadFactor = s.maxLoadFactor
  limit : s'.countGrowthLimit = s.countGrowthLimit
  count : s'.count = s.count
  entries_size : c.type ≠ .index → s'.entries.size = s.entries.size
  realIndex_size : c.type = .index → s'.realIndex.size = s.realIndex.size
  refs : c.type = .index → ∀ i, s.Occupied i → s'.realIndex.cell i = s.realIndex.cell i
  entries : ∀ j, used j → Entry.Alike c D (s.entries.cell j) (s'.entries.cell j)
  whole : D → s'.entries = s.entries ∧ s'.realIndex = s.realIndex

/-- The cells of the entry array that hold an entry. -/
def InUse (c : Template K) (s : Core K V) (j : ℕ) : Prop :=
  if c.type = .index then j < s.count else s.Occupied j

/-- Alike between calls. -/
structure Settled (c : Template K) (mode : Mode) (D : Prop) (s s' : Core K V) : Prop
    extends Alike c mode D (s.InUse c) s s' where
  left : s.Inv c
  right : s'.Inv (c.withMode mode)

theorem inUse_index (ht : c.type = .index) {j : ℕ} : s.InUse c j ↔ j < s.count := by
  rw [InUse, if_pos ht]

theorem inUse_slot (ht : c.type ≠ .index) {j : ℕ} : s.InUse c j ↔ s.Occupied j := by
  rw [InUse, if_neg ht]

theorem Layout.inUse_ref (h : s.Layout c) {i : ℕ} (hi : s.Occupied i) : s.InUse c (s.ref c i) := by
  by_cases ht : c.type = .index
  · exact (inUse_index ht).mpr (h.ref_lt_count ht hi.1 hi.2)
  · rw [ref, if_neg ht]
    exact (inUse_slot ht).mpr hi

theorem Alike.ref_eq (h : Alike c mode D used s s') {i : ℕ} (hi : s.Occupied i) :
    s'.ref (c.withMode mode) i = s.ref c i := by
  by_cases ht : c.type = .index
  · rw [ref, ref, if_pos ht, if_pos ht, h.refs ht i hi]
  · rw [ref, ref, if_neg ht, if_neg ht]

section Probes

theorem Alike.findEmpty_eq (h : Alike c mode D used s s') (hash : UInt64) :
    s'.findEmpty (c.withMode mode) fuel hash = s.findEmpty c fuel hash := by
  refine probe_congr h.adjust (fun n _ => ?_) fuel
  simp only [findEmptyWindow, h.tags.load_eq]

theorem Alike.probeUnique_eq (h : Alike c mode D used s s') (key : K) :
    s'.probeUnique (c.withMode mode) fuel key = s.probeUnique c fuel key := by
  refine probe_congr h.adjust (fun n _ => ?_) fuel
  simp only [probeUniqueWindow, h.tags.load_eq]

variable [DecidableEq K]

theorem Settled.findMatch_eq (h : Settled c mode D s s') (key : K) {base mask : ℕ}
    (hlt : mask < 2 ^ 16) (hmask : ∀ o, mask.testBit o = true → s.Occupied (base + o)) :
    s'.findMatch (c.withMode mode) fuel key base mask = s.findMatch c fuel key base mask := by
  refine (agree_loop (I := fun m m' => m' = m ∧ m < 2 ^ 16 ∧
    ∀ o, m.testBit o = true → s.Occupied (base + o)) ⟨rfl, hlt, hmask⟩ ?_ fuel).eq.symm
  intro m m' hI
  obtain ⟨rfl, hlt, hmask⟩ := hI
  by_cases hm : m' = 0
  · simp only [if_pos hm, agree_ok]
    exact .inr rfl
  · have hocc := hmask _ (trailingZeroCount_least c.bFix hm hlt).1
    set i := base + trailingZeroCount c.bFix 32 m'
    have hocc' : s'.Occupied i := by
      have hi := hocc.1
      exact ⟨h.tags.size.symm ▸ hi, h.tags.cell i (by omega) ▸ hocc.2⟩
    have halike := h.entries _ (h.left.inUse_ref hocc)
    have href := h.ref_eq hocc
    have hread := Block.read_of_lt (h.left.ref_lt hocc.1 hocc.2)
    have hread' := Block.read_of_lt (h.right.ref_lt hocc'.1 hocc'.2)
    rw [href] at hread'
    simp only [if_neg hm, h.left.entryRef_eq hocc.1, h.right.entryRef_eq hocc'.1, href, hread,
      hread', halike.key, Exec.ok_bind]
    by_cases hk : key = (s.entries.cell (s.ref c i)).key
    · simp only [if_pos hk, agree_ok]
      exact .inr rfl
    · simp only [if_neg hk, agree_ok]
      refine .inl ⟨rfl, Nat.and_le_left.trans_lt hlt, fun o ho => hmask o ?_⟩
      rw [resetLowestSetBit, Nat.testBit_land, Bool.and_eq_true] at ho
      exact ho.1

theorem Settled.match_eq (h : Settled c mode D s s') (key : K) (n : ℕ) :
    s'.findMatch (c.withMode mode) fuel key (s.windowBase c (c.hasher key) n)
        (getCmpMask (s.tags.source (s.windowBase c (c.hasher key) n)) (hashToTag (c.hasher key))) =
      s.findMatch c fuel key (s.windowBase c (c.hasher key) n)
        (getCmpMask (s.tags.source (s.windowBase c (c.hasher key) n))
          (hashToTag (c.hasher key))) := by
  have hb := h.left.windowBase_lt (c.hasher key) n
  have hbit := h.left.valid.testBit_getCmpMask hb (hashToTag_lt (c.hasher key))
  refine h.findMatch_eq key (TagArray.mask_lt _) fun o ho => ?_
  obtain ⟨-, hsize, htag⟩ := (hbit o).mp ho
  exact ⟨hsize, htag ▸ hashToTag_lt _⟩

theorem Settled.findEntry_eq (h : Settled c mode D s s') (key : K) :
    s'.findEntry (c.withMode mode) fuel key = s.findEntry c fuel key := by
  refine probe_congr h.adjust (fun n _ => ?_) fuel
  have hb := h.left.windowBase_lt (c.hasher key) n
  simp only [findEntryWindow, h.tags.load_eq, TagArray.load_of_lt hb, Exec.ok_bind, h.match_eq]

theorem Settled.probeChecked_eq (h : Settled c mode D s s') (key : K) :
    s'.probeChecked (c.withMode mode) fuel key = s.probeChecked c fuel key := by
  refine probe_congr h.adjust (fun n _ => ?_) fuel
  have hb := h.left.windowBase_lt (c.hasher key) n
  simp only [probeCheckedWindow, h.tags.load_eq, TagArray.load_of_lt hb, Exec.ok_bind, h.match_eq]

end Probes

end Core

end SimdHash
