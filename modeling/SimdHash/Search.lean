import SimdHash.Windows

/-! What the four probe loops find, in terms of the slots of the windows they
look at, for a table whose tags agree with the keys they stand for. -/

namespace SimdHash

open BitMask OpenAddressing TagVector

namespace Core

variable {K V : Type}

section Views

variable (c : Template K) (s : Core K V)

def ref (i : ℕ) : ℕ := if c.type = .index then s.realIndex.cell i else i

def record (i : ℕ) : Entry K V := s.entries.cell (s.ref c i)

def slots : ℕ → Slot (Entry K V) := s.tags.slots (s.record c)

def entriesHeld : Multiset (Entry K V) := content (Finset.range s.tags.size) (s.slots c)

/-- The tags are well formed and as many as the capacity says. -/
structure Table : Prop where
  geometry : s.Geometry c
  valid : s.tags.Valid
  size_eq : s.tags.size = s.capacity

/-- The storage behind the slots, and the probe chains. In an `Index` the live
slots point to `0, ..., Count - 1`, each once. -/
structure Layout : Prop extends Table c s where
  entries_size : c.type ≠ .index → s.entries.size = s.capacity
  realIndex_size : c.type = .index → s.realIndex.size = s.capacity
  index_count : c.type = .index → s.count ≤ s.entries.size
  index_page : c.type = .index → pageSize ∣ s.entries.size
  index_refs : c.type = .index →
    content (Finset.range s.tags.size) (s.tags.slots s.realIndex.cell) = Multiset.range s.count
  tagged : ∀ i e, s.slots c i = .live e → s.tags.cell i = hashToTag (c.hasher e.key)
  chained : Chained (s.slots c) fun e => s.windows c (c.hasher e.key)

/-- Slot 12 of a window, where a later slot of the window has the same tag:
the broken cascade passes it over. -/
def PassedOver (base i : ℕ) : Prop :=
  c.bFix = true ∧ i = base + 12 ∧ ∃ j ∈ s.tags.window base, i < j ∧ s.tags.cell j = s.tags.cell i

/-- A search for `key` stops at slot `i` of its `n`-th window, if not before. -/
def Shows (key : K) (n i : ℕ) : Prop :=
  i ∈ s.windows c (c.hasher key) n ∧ (∃ e, s.slots c i = .live e ∧ e.key = key) ∧
    ¬ s.PassedOver c (s.windowBase c (c.hasher key) n) i

/-- Some slot of its `n`-th window shows `key` to a search. -/
def Seen (key : K) (n : ℕ) : Prop :=
  ∃ i ∈ s.windows c (c.hasher key) n, (∃ e, s.slots c i = .live e ∧ e.key = key) ∧
    ¬ s.PassedOver c (s.windowBase c (c.hasher key) n) i

end Views

variable {c : Template K} {s : Core K V}

theorem slots_eq_live {i : ℕ} {e : Entry K V} :
    s.slots c i = .live e ↔ i < s.tags.size ∧ s.tags.cell i < 0x80 ∧ s.record c i = e :=
  TagArray.slots_eq_live

theorem Table.windowBase_lt (h : s.Table c) (hash : UInt64) (n : ℕ) :
    s.windowBase c hash n < s.tags.size :=
  h.size_eq ▸ h.geometry.windowBase_lt hash n

theorem Layout.ref_lt_count (h : s.Layout c) (ht : c.type = .index) {i : ℕ} (hi : i < s.tags.size)
    (hlive : s.tags.cell i < 0x80) : s.ref c i < s.count := by
  have hmem : s.realIndex.cell i ∈ Multiset.range s.count := by
    rw [← h.index_refs ht, mem_content]
    exact ⟨i, Finset.mem_range.mpr hi, TagArray.slots_eq_live.mpr ⟨hi, hlive, rfl⟩⟩
  rw [ref, if_pos ht]
  exact Multiset.mem_range.mp hmem

theorem Layout.ref_lt (h : s.Layout c) {i : ℕ} (hi : i < s.tags.size)
    (hlive : s.tags.cell i < 0x80) : s.ref c i < s.entries.size := by
  by_cases ht : c.type = .index
  · exact (h.ref_lt_count ht hi hlive).trans_le (h.index_count ht)
  · rwa [ref, if_neg ht, h.entries_size ht, ← h.size_eq]

theorem Layout.entryRef_eq (h : s.Layout c) {i : ℕ} (hi : i < s.tags.size) :
    s.entryRef c i = .ok (s.ref c i) := by
  by_cases ht : c.type = .index
  · rw [entryRef, if_pos ht, ref, if_pos ht]
    exact Block.read_of_lt (by rwa [h.realIndex_size ht, ← h.size_eq])
  · rw [entryRef, if_neg ht, ref, if_neg ht]

section Lookup

theorem Seen.holds {key : K} {n : ℕ} (h : s.Seen c key n) :
    Holds (s.slots c) (s.windows c (c.hasher key) n) fun e => e.key = key := by
  obtain ⟨i, hmem, hlive, -⟩ := h
  exact ⟨i, hmem, hlive⟩

theorem seen_iff (hfix : c.bFix = false) {key : K} {n : ℕ} : s.Seen c key n ↔
    Holds (s.slots c) (s.windows c (c.hasher key) n) fun e => e.key = key := by
  refine ⟨Seen.holds, fun h => ?_⟩
  obtain ⟨i, hmem, hlive⟩ := h
  exact ⟨i, hmem, hlive, by simp [PassedOver, hfix]⟩

variable [DecidableEq K] {fuel : ℕ}

theorem Layout.findMatch_ensures (h : s.Layout c) (key : K) {base mask : ℕ}
    (hlt : mask < 2 ^ 16) (hmask : ∀ o, mask.testBit o = true →
      base + o < s.tags.size ∧ s.tags.cell (base + o) < 0x80) :
    Exec.Ensures (s.findMatch c fuel key base mask)
      (fun r => match r with
        | some r => ∃ o, mask.testBit o = true ∧ ¬ Passes c.bFix mask o ∧
            (s.record c (base + o)).key = key ∧ r = s.ref c (base + o) ∧
            ∀ o' < o, mask.testBit o' = true → ¬ Passes c.bFix mask o' →
              (s.record c (base + o')).key ≠ key
        | none => ∀ o, mask.testBit o = true → ¬ Passes c.bFix mask o →
            (s.record c (base + o)).key ≠ key)
      (fun e => e = .timeout ∧ fuel < 2 ^ 16) := by
  refine Exec.ensures_loop
    (I := fun n m => m + n ≤ mask ∧ (∀ o, m.testBit o = true → mask.testBit o = true) ∧
      ∀ o, mask.testBit o = true → m.testBit o = false →
        (¬ Passes c.bFix mask o → (s.record c (base + o)).key ≠ key) ∧
          ∀ j, m.testBit j = true → o < j) ?_ ?_ ?_
  · exact ⟨le_rfl, fun _ ho => ho, fun o ho hf => by simp [ho] at hf⟩
  · rintro n m - ⟨hle, hsub, hmiss⟩
    by_cases hm : m = 0
    · subst hm
      simpa using fun o ho => (hmiss o ho (by simp)).1
    obtain ⟨hbit, hnot, hleast⟩ := trailingZeroCount_least c.bFix hm (by omega)
    set o := trailingZeroCount c.bFix 32 m
    obtain ⟨hsize, hlive⟩ := hmask o (hsub o hbit)
    have hread : s.entries.read (s.ref c (base + o)) = .ok (s.record c (base + o)) :=
      Block.read_of_lt (h.ref_lt hsize hlive)
    simp only [hm, if_false, h.entryRef_eq hsize, hread, Exec.ok_bind]
    by_cases hk : key = (s.record c (base + o)).key
    · have hseen : ¬ Passes c.bFix mask o := by
        intro hpass
        obtain ⟨hfix, h12, j, hj, hset⟩ := hpass
        by_cases hmj : m.testBit j = true
        · exact hnot ⟨hfix, h12, j, hj, hmj⟩
        · have := (hmiss j hset (by simpa using hmj)).2 o hbit
          omega
      have hfirst : ∀ o' < o, mask.testBit o' = true → ¬ Passes c.bFix mask o' →
          (s.record c (base + o')).key ≠ key := by
        intro o' hlt hset hseen'
        by_cases hmo : m.testBit o' = true
        · obtain ⟨hfix, h12, j, hj, hsetj⟩ := hleast o' hlt hmo
          exact absurd ⟨hfix, h12, j, hj, hsub j hsetj⟩ hseen'
        · exact (hmiss o' hset (by simpa using hmo)).1 hseen'
      simp only [if_pos hk, Exec.ensures_ok, Sum.elim_inr]
      exact ⟨o, hsub o hbit, hseen, hk.symm, rfl, hfirst⟩
    · simp only [hk, if_false, Exec.ensures_ok, Sum.elim_inl]
      have hlow : IsLowest m (tzcnt 32 m) := tzcnt_isLowest hm (by omega)
      have hclear (j : ℕ) : (resetLowestSetBit m).testBit j = true ↔
          m.testBit j = true ∧ j ≠ tzcnt 32 m := hlow.testBit_land_pred j
      refine ⟨?_, fun j hj => hsub j ((hclear j).mp hj).1, fun j hj hcleared => ?_⟩
      · have := land_pred_lt hm
        simp only [resetLowestSetBit]
        omega
      · by_cases hmj : m.testBit j = true
        -- `j` is the lowest bit, which is the one just looked at unless it is passed over
        · have hjlow : j = tzcnt 32 m := by
            by_contra hne
            simp [(hclear j).mpr ⟨hmj, hne⟩] at hcleared
          constructor
          · intro hseen
            have hjo : ¬ j < o := by
              intro hlt
              obtain ⟨hfix, h12, i, hi, hset⟩ := hleast j hlt hmj
              exact hseen ⟨hfix, h12, i, hi, hsub i hset⟩
            have hoj : ¬ o < j := by
              intro hlt
              rw [hjlow] at hlt
              exact absurd ((hlow.2 o hlt).symm.trans hbit) (by simp)
            obtain rfl : j = o := by omega
            exact Ne.symm hk
          · intro i hi
            obtain ⟨hset, hne⟩ := (hclear i).mp hi
            by_contra hge
            have hlt : i < tzcnt 32 m := by omega
            exact absurd ((hlow.2 i hlt).symm.trans hset) (by simp)
        · obtain ⟨hkey, hbelow⟩ := hmiss j hj (by simpa using hmj)
          exact ⟨hkey, fun i hi => hbelow i ((hclear i).mp hi).1⟩
  · intro m hm
    obtain ⟨hle, -, -⟩ := hm
    exact ⟨rfl, by omega⟩

/-- The search of a window gives the first slot that shows the key. -/
theorem Layout.match_least (h : s.Layout c) (key : K) (n : ℕ) :
    Exec.Ensures (s.findMatch c fuel key (s.windowBase c (c.hasher key) n)
        (getCmpMask (s.tags.source (s.windowBase c (c.hasher key) n)) (hashToTag (c.hasher key))))
      (fun r => match r with
        | some r => ∃ i, IsLeast {i | s.Shows c key n i} i ∧ r = s.ref c i
        | none => ¬ s.Seen c key n)
      (fun e => e = .timeout ∧ fuel < 2 ^ 16) := by
  have hb := h.windowBase_lt (c.hasher key) n
  have hbit := h.valid.testBit_getCmpMask hb (hashToTag_lt (c.hasher key))
  set base := s.windowBase c (c.hasher key) n with hbase
  set mask := getCmpMask (s.tags.source base) (hashToTag (c.hasher key))
  have hpass (o : ℕ) (htag : s.tags.cell (base + o) = hashToTag (c.hasher key)) :
      Passes c.bFix mask o ↔ s.PassedOver c base (base + o) := by
    constructor
    · intro hp
      obtain ⟨hfix, h12, j, hj, hset⟩ := hp
      obtain ⟨hj16, hjsize, hjtag⟩ := (hbit j).mp hset
      exact ⟨hfix, by rw [h12], base + j, TagArray.mem_window hj16 hjsize, by omega,
        hjtag.trans htag.symm⟩
    · intro hp
      obtain ⟨hfix, h12, j, ⟨hge, hj16, hjsize⟩, hj, hjtag⟩ := hp
      obtain ⟨o', rfl⟩ := Nat.exists_eq_add_of_le hge
      exact ⟨hfix, by omega, o', by omega, (hbit o').mpr ⟨by omega, hjsize, hjtag.trans htag⟩⟩
  refine (h.findMatch_ensures key (TagArray.mask_lt _) fun o ho => ?_).mono ?_
  · obtain ⟨-, hsize, htag⟩ := (hbit o).mp ho
    exact ⟨hsize, htag ▸ hashToTag_lt _⟩
  · rintro (_ | r)
    · intro hnone hr
      obtain ⟨i, ⟨hge, hlt, hsize⟩, ⟨e, hlive, hkey⟩, hseen⟩ := hr
      have htag := h.tagged i e hlive
      rw [hkey] at htag
      obtain ⟨o, rfl⟩ := Nat.exists_eq_add_of_le hge
      rw [← hbase] at hlt htag hseen hsize hlive
      refine hnone o ((hbit o).mpr ⟨by omega, hsize, htag⟩) ((hpass o htag).not.mpr hseen) ?_
      rw [(slots_eq_live.mp hlive).2.2, hkey]
    · intro hfound
      obtain ⟨o, ho, hseen, hkey, rfl, hfirst⟩ := hfound
      obtain ⟨ho16, hsize, htag⟩ := (hbit o).mp ho
      have hlive : s.slots c (base + o) = .live (s.record c (base + o)) :=
        slots_eq_live.mpr ⟨hsize, htag ▸ hashToTag_lt _, rfl⟩
      have hmem := TagArray.mem_window ho16 hsize
      refine ⟨base + o, ⟨⟨hmem, ⟨_, hlive, hkey⟩, (hpass o htag).not.mp hseen⟩, ?_⟩, rfl⟩
      intro i hi
      obtain ⟨⟨hge, hlt, hsize'⟩, ⟨e, hlive', hkey'⟩, hseen'⟩ := hi
      obtain ⟨o', rfl⟩ := Nat.exists_eq_add_of_le hge
      rw [← hbase] at hlt hsize' hlive' hseen' ⊢
      have htag' := h.tagged _ e hlive'
      rw [hkey'] at htag'
      by_contra hlow
      refine hfirst o' (by omega) ((hbit o').mpr ⟨by omega, hsize', htag'⟩)
        ((hpass o' htag').not.mpr hseen') ?_
      rw [(slots_eq_live.mp hlive').2.2, hkey']

theorem Layout.match_ensures (h : s.Layout c) (key : K) (n : ℕ) :
    Exec.Ensures (s.findMatch c fuel key (s.windowBase c (c.hasher key) n)
        (getCmpMask (s.tags.source (s.windowBase c (c.hasher key) n)) (hashToTag (c.hasher key))))
      (fun r => match r with
        | some r => s.Seen c key n ∧ ∃ i ∈ s.windows c (c.hasher key) n, ∃ e,
            s.slots c i = .live e ∧ e.key = key ∧ r = s.ref c i
        | none => ¬ s.Seen c key n)
      (fun e => e = .timeout ∧ fuel < 2 ^ 16) := by
  refine (h.match_least key n).mono ?_
  rintro (_ | r) hr
  · exact hr
  · obtain ⟨i, ⟨hshows, -⟩, rfl⟩ := hr
    obtain ⟨hmem, ⟨e, hlive, hkey⟩, hseen⟩ := id hshows
    exact ⟨⟨i, hshows⟩, i, hmem, e, hlive, hkey, rfl⟩

theorem Layout.findEntryWindow_ensures (h : s.Layout c) (fuel : ℕ) (key : K) (n : ℕ) :
    Exec.Ensures (s.findEntryWindow c fuel key (s.windowBase c (c.hasher key) n))
      (fun r => match r with
        | some (some r) => s.Seen c key n ∧ ∃ i ∈ s.windows c (c.hasher key) n, ∃ e,
            s.slots c i = .live e ∧ e.key = key ∧ r = s.ref c i
        | some none => HasEmpty (s.slots c) (s.windows c (c.hasher key) n) ∧ ¬ s.Seen c key n
        | none => ¬ HasEmpty (s.slots c) (s.windows c (c.hasher key) n) ∧ ¬ s.Seen c key n)
      (fun e => e = .timeout ∧ fuel < 2 ^ 16) := by
  have hb := h.windowBase_lt (c.hasher key) n
  rw [findEntryWindow, TagArray.load_of_lt hb, Exec.ok_bind]
  refine (h.match_ensures key n).bind ?_
  rintro (_ | r) hr
  · by_cases he : getEmptyMask (s.tags.source (s.windowBase c (c.hasher key) n)) ≠ 0
    · simpa [he] using ⟨(h.valid.getEmptyMask_ne_zero hb _).mp he, hr⟩
    · simpa [he] using ⟨(h.valid.getEmptyMask_ne_zero hb _).not.mp he, hr⟩
  · exact hr

/-- A lookup stops at the first window that shows the key or has an empty slot. -/
theorem Layout.findEntry_ensures (h : s.Layout c) (key : K) :
    Exec.Ensures (s.findEntry c fuel key)
      (fun r => ∃ n, (∀ m < n, ¬ HasEmpty (s.slots c) (s.windows c (c.hasher key) m) ∧
          ¬ s.Seen c key m) ∧
        match r with
        | some r => s.Seen c key n ∧ ∃ i ∈ s.windows c (c.hasher key) n, ∃ e,
            s.slots c i = .live e ∧ e.key = key ∧ r = s.ref c i
        | none => HasEmpty (s.slots c) (s.windows c (c.hasher key) n) ∧ ¬ s.Seen c key n)
      (fun e => e = .timeout ∧ (fuel < 2 ^ 16 ∨ ∀ n < fuel,
        ¬ HasEmpty (s.slots c) (s.windows c (c.hasher key) n) ∧ ¬ s.Seen c key n)) := by
  have hspec := h.findEntryWindow_ensures fuel key
  refine (probe_ensures (s.findEntryWindow c fuel key) (c.hasher key)).imp ?_ ?_
  · intro r hr
    obtain ⟨n, -, hn, hbefore⟩ := hr
    refine ⟨n, fun m hm => (hspec m).value (hbefore m hm), ?_⟩
    cases r <;> exact (hspec n).value hn
  · rintro e (⟨n, -, hn⟩ | ⟨rfl, hall⟩)
    · obtain ⟨rfl, hfuel⟩ := (hspec n).fault hn
      exact ⟨rfl, .inl hfuel⟩
    · exact ⟨rfl, .inr fun n hn => (hspec n).value (hall n hn)⟩

end Lookup

section Free

variable {fuel : ℕ}

/-- The slot that a nonzero mask of free slots selects. -/
theorem Table.free_of_mask (h : s.Table c) (hash : UInt64) (n : ℕ)
    (hm : getEmptyOrTomeStoneMask (s.tags.source (s.windowBase c hash n)) ≠ 0) :
    ∃ i, s.windowBase c hash n + trailingZeroCount c.bFix 32
        (getEmptyOrTomeStoneMask (s.tags.source (s.windowBase c hash n))) = i ∧
      i ∈ s.windows c hash n ∧ (∀ e, s.slots c i ≠ .live e) ∧
      ∀ j ∈ s.windows c hash n, (∀ e, s.slots c j ≠ .live e) → j < i →
        c.bFix = true ∧ j = s.windowBase c hash n + 12 := by
  have hb := h.windowBase_lt hash n
  have hbit := h.valid.testBit_getEmptyOrTomeStoneMask hb
  have hlt : getEmptyOrTomeStoneMask (s.tags.source (s.windowBase c hash n)) < 2 ^ 16 :=
    TagArray.mask_lt _
  obtain ⟨hset, -, hleast⟩ := trailingZeroCount_least c.bFix hm hlt
  obtain ⟨ho, hsize, hfree⟩ := (hbit _).mp hset
  refine ⟨_, rfl, TagArray.mem_window ho hsize, TagArray.slots_not_live.mpr fun _ => hfree, ?_⟩
  rintro j ⟨hge, hjlt, hjsize⟩ hj hlow
  obtain ⟨o, rfl⟩ := Nat.exists_eq_add_of_le hge
  obtain ⟨hfix, rfl, -⟩ := hleast o (by omega)
    ((hbit o).mpr ⟨by omega, hjsize, TagArray.slots_not_live.mp hj hjsize⟩)
  exact ⟨hfix, rfl⟩

theorem Table.empty_of_mask (h : s.Table c) (hash : UInt64) (n : ℕ)
    (hm : getEmptyMask (s.tags.source (s.windowBase c hash n)) ≠ 0) :
    ∃ i, s.windowBase c hash n + trailingZeroCount c.bFix 32
        (getEmptyMask (s.tags.source (s.windowBase c hash n))) = i ∧
      i ∈ s.windows c hash n ∧ s.slots c i = .empty := by
  have hb := h.windowBase_lt hash n
  obtain ⟨ho, he⟩ := (h.valid.testBit_getEmptyMask hb (s.record c) _).mp
    (trailingZeroCount_least c.bFix hm (TagArray.mask_lt _)).1
  exact ⟨_, rfl, TagArray.mem_window ho (TagArray.slots_eq_empty.mp he).1, he⟩

theorem Table.findEmptyWindow_ensures (h : s.Table c) (hash : UInt64) (n : ℕ) :
    Exec.Ensures (s.findEmptyWindow c (s.windowBase c hash n))
      (fun r => match r with
        | some i => i ∈ s.windows c hash n ∧ s.slots c i = .empty
        | none => ¬ HasEmpty (s.slots c) (s.windows c hash n)) (fun _ => False) := by
  have hb := h.windowBase_lt hash n
  rw [findEmptyWindow, TagArray.load_of_lt hb, Exec.ok_bind]
  by_cases he : getEmptyMask (s.tags.source (s.windowBase c hash n)) ≠ 0
  · obtain ⟨i, hi, hmem, hempty⟩ := h.empty_of_mask hash n he
    simpa [he, hi] using ⟨hmem, hempty⟩
  · have hno : ¬ HasEmpty (s.slots c) (s.windows c hash n) :=
      (h.valid.getEmptyMask_ne_zero hb _).not.mp he
    simpa [he] using hno

/-- An insertion slot is searched for up to the first window with an empty slot. -/
theorem Table.findEmpty_ensures (h : s.Table c) (hash : UInt64) :
    Exec.Ensures (s.findEmpty c fuel hash)
      (fun i => ∃ n, (∀ m < n, ¬ HasEmpty (s.slots c) (s.windows c hash m)) ∧
        i ∈ s.windows c hash n ∧ s.slots c i = .empty)
      (fun e => e = .timeout ∧ ∀ n < fuel, ¬ HasEmpty (s.slots c) (s.windows c hash n)) := by
  have hspec := h.findEmptyWindow_ensures hash
  refine (probe_ensures (s.findEmptyWindow c) hash).imp ?_ ?_
  · intro i hi
    obtain ⟨n, -, hn, hbefore⟩ := hi
    exact ⟨n, fun m hm => (hspec m).value (hbefore m hm), (hspec n).value hn⟩
  · rintro e (⟨n, -, hn⟩ | ⟨rfl, hall⟩)
    · exact False.elim ((hspec n).fault hn)
    · exact ⟨rfl, fun n hn => (hspec n).value (hall n hn)⟩

/-- The slot that an insertion takes: the first free one of its window, or one
after slot 12, where the checked loop has not met the key up to there. -/
def FreeSlot (c : Template K) (s : Core K V) (bUnique : Bool) (key : K) (i : ℕ) : Prop :=
  ∃ n, (∀ m < n, ¬ HasFree (s.slots c) (s.windows c (c.hasher key) m)) ∧
    i ∈ s.windows c (c.hasher key) n ∧ (∀ e, s.slots c i ≠ .live e) ∧
    (∀ j ∈ s.windows c (c.hasher key) n, (∀ e, s.slots c j ≠ .live e) → j < i →
      c.bFix = true ∧ j = s.windowBase c (c.hasher key) n + 12) ∧
    (bUnique = false → ∀ m ≤ n, ¬ s.Seen c key m)

/-- The slot where a checked insertion finds the key, before any free slot. -/
def FoundSlot (c : Template K) (s : Core K V) (key : K) (i : ℕ) : Prop :=
  ∃ n, (∀ m < n, ¬ HasFree (s.slots c) (s.windows c (c.hasher key) m)) ∧ s.Seen c key n ∧
    i ∈ s.windows c (c.hasher key) n ∧ ∃ e, s.slots c i = .live e ∧ e.key = key

theorem Table.probeUniqueWindow_ensures (h : s.Table c) (hash : UInt64) (n : ℕ) :
    Exec.Ensures (s.probeUniqueWindow c (s.windowBase c hash n))
      (fun r => match r with
        | some r => ∃ i, r = .free i ∧ i ∈ s.windows c hash n ∧ (∀ e, s.slots c i ≠ .live e) ∧
            ∀ j ∈ s.windows c hash n, (∀ e, s.slots c j ≠ .live e) → j < i →
              c.bFix = true ∧ j = s.windowBase c hash n + 12
        | none => ¬ HasFree (s.slots c) (s.windows c hash n)) (fun _ => False) := by
  have hb := h.windowBase_lt hash n
  rw [probeUniqueWindow, TagArray.load_of_lt hb, Exec.ok_bind]
  by_cases he : getEmptyOrTomeStoneMask (s.tags.source (s.windowBase c hash n)) ≠ 0
  · obtain ⟨i, hi, hslot⟩ := h.free_of_mask hash n he
    simpa [he, hi] using hslot
  · have hno : ¬ HasFree (s.slots c) (s.windows c hash n) :=
      (h.valid.getEmptyOrTomeStoneMask_ne_zero hb _).not.mp he
    simpa [he] using hno

theorem Table.probeUnique_ensures (h : s.Table c) (key : K) :
    Exec.Ensures (s.probeUnique c fuel key)
      (fun r => ∃ i, r = .free i ∧ s.FreeSlot c true key i)
      (fun e => e = .timeout ∧
        ∀ n < fuel, ¬ HasFree (s.slots c) (s.windows c (c.hasher key) n)) := by
  have hspec := h.probeUniqueWindow_ensures (c.hasher key)
  refine (probe_ensures (s.probeUniqueWindow c) (c.hasher key)).imp ?_ ?_
  · intro r hr
    obtain ⟨n, -, hn, hbefore⟩ := hr
    obtain ⟨i, rfl, hmem, hfree, hleast⟩ := (hspec n).value hn
    exact ⟨i, rfl, n, fun m hm => (hspec m).value (hbefore m hm), hmem, hfree, hleast, by simp⟩
  · rintro e (⟨n, -, hn⟩ | ⟨rfl, hall⟩)
    · exact False.elim ((hspec n).fault hn)
    · exact ⟨rfl, fun n hn => (hspec n).value (hall n hn)⟩

theorem Layout.probeCheckedWindow_ensures [DecidableEq K] (h : s.Layout c) (fuel : ℕ) (key : K)
    (n : ℕ) :
    Exec.Ensures (s.probeCheckedWindow c fuel key (s.windowBase c (c.hasher key) n))
      (fun r => match r with
        | some r => (s.Seen c key n ∧ ∃ i, r = .found (s.ref c i) ∧
              i ∈ s.windows c (c.hasher key) n ∧ ∃ e, s.slots c i = .live e ∧ e.key = key) ∨
            ¬ s.Seen c key n ∧ ∃ i, r = .free i ∧ i ∈ s.windows c (c.hasher key) n ∧
              (∀ e, s.slots c i ≠ .live e) ∧
              ∀ j ∈ s.windows c (c.hasher key) n, (∀ e, s.slots c j ≠ .live e) → j < i →
                c.bFix = true ∧ j = s.windowBase c (c.hasher key) n + 12
        | none => ¬ HasFree (s.slots c) (s.windows c (c.hasher key) n) ∧ ¬ s.Seen c key n)
      (fun e => e = .timeout ∧ fuel < 2 ^ 16) := by
  have hb := h.windowBase_lt (c.hasher key) n
  rw [probeCheckedWindow, TagArray.load_of_lt hb, Exec.ok_bind]
  refine (h.match_ensures key n).bind ?_
  rintro (_ | r) hr
  · by_cases he : getEmptyOrTomeStoneMask (s.tags.source (s.windowBase c (c.hasher key) n)) ≠ 0
    · obtain ⟨i, hi, hslot⟩ := h.free_of_mask (c.hasher key) n he
      simp only [he, ne_eq, not_false_eq_true, if_true, Exec.ensures_ok, hi]
      exact .inr ⟨hr, i, rfl, hslot⟩
    · simpa [he] using ⟨(h.valid.getEmptyOrTomeStoneMask_ne_zero hb _).not.mp he, hr⟩
  · obtain ⟨hseen, i, hi, e, hlive, hkey, rfl⟩ := hr
    exact .inl ⟨hseen, i, rfl, hi, e, hlive, hkey⟩

theorem Layout.probeChecked_ensures [DecidableEq K] (h : s.Layout c) (key : K) :
    Exec.Ensures (s.probeChecked c fuel key)
      (fun r => (∃ i, r = .found (s.ref c i) ∧ s.FoundSlot c key i) ∨
        ∃ i, r = .free i ∧ s.FreeSlot c false key i)
      (fun e => e = .timeout ∧ (fuel < 2 ^ 16 ∨
        ∀ n < fuel, ¬ HasFree (s.slots c) (s.windows c (c.hasher key) n))) := by
  have hspec := h.probeCheckedWindow_ensures fuel key
  refine (probe_ensures (s.probeCheckedWindow c fuel key) (c.hasher key)).imp ?_ ?_
  · intro r hr
    obtain ⟨n, -, hn, hbefore⟩ := hr
    have hb (m : ℕ) (hm : m < n) := (hspec m).value (hbefore m hm)
    rcases (hspec n).value hn with ⟨hseen, i, rfl, hslot⟩ | ⟨hmiss, i, rfl, hmem, hfree, hleast⟩
    · exact .inl ⟨i, rfl, n, fun m hm => (hb m hm).1, hseen, hslot⟩
    · refine .inr ⟨i, rfl, n, fun m hm => (hb m hm).1, hmem, hfree, hleast, fun _ m hm => ?_⟩
      rcases Nat.lt_or_eq_of_le hm with hlt | rfl
      · exact (hb m hlt).2
      · exact hmiss
  · rintro e (⟨n, -, hn⟩ | ⟨rfl, hall⟩)
    · obtain ⟨rfl, hfuel⟩ := (hspec n).fault hn
      exact ⟨rfl, .inl hfuel⟩
    · exact ⟨rfl, .inr fun n hn => ((hspec n).value (hall n hn)).1⟩

end Free

end Core

end SimdHash
