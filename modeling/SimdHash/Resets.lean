import SimdHash.Calls

/-! What `Clear` with a size and `Rehash` leave behind: when an empty container
and a table without tombstones. -/

namespace SimdHash

open OpenAddressing TagVector Transition

namespace Core

variable {K V : Type} {c : Template K} {s t : Core K V} {fuel : ℕ}

theorem Layout.lookup_of_empty [DecidableEq K] (h : s.Layout c)
    (hempty : ∀ i < s.tags.size, s.tags.cell i = empty) (hfuel : 2 ^ 16 ≤ fuel) (key : K) :
    s.findEntry c fuel key = .ok none := by
  have hslot (i : ℕ) (hi : i < s.tags.size) : s.slots c i = .empty :=
    TagArray.slots_eq_empty.mpr ⟨hi, hempty i hi⟩
  have hbase := h.windowBase_lt (c.hasher key) 0
  have hwindow : HasEmpty (s.slots c) (s.windows c (c.hasher key) 0) :=
    ⟨_, TagArray.mem_window (o := 0) (by decide) hbase, hslot _ hbase⟩
  have hlookup : Exec.Ensures (s.findEntry c fuel key) _ _ := h.looked_ensures key
  obtain ⟨r, hr, hlooked⟩ := hlookup.returns fun e he => by
    obtain ⟨-, hsmall | hfull⟩ := he
    · omega
    · exact (hfull 0 (by omega)).1 hwindow
  cases hlooked with
  | found hmet hlive hkey =>
    rw [hslot _ (slots_lt_size hlive)] at hlive
    cases hlive
  | absent hunmet => exact hr

section Clear

/-- An empty container of `capacity` slots, in which no key is found. -/
structure Blank [DecidableEq K] (c : Template K) (capacity : ℕ) (s : Core K V) : Prop where
  count_eq : s.count = 0
  capacity_eq : s.capacity = capacity
  size_eq : s.tags.size = capacity
  tag : ∀ i < capacity, s.tags.cell i = empty
  sentinel : ∀ i, capacity ≤ i → i < capacity + TagVector.size → s.tags.cell i = forbidden
  absent : ∀ fuel key, 2 ^ 16 ≤ fuel → s.findEntry c fuel key = .ok none

theorem Inv.cleared_blank [DecidableEq K] (h : s.Inv c) (size : ℕ) :
    Blank c (if size = 0 then s.capacity else adjustCapacity c.mode size)
      (Core.cleared c s size) := by
  obtain ⟨htags, hcount⟩ := cleared_tags (c := c) s size
  have hinv := h.cleared size
  have hcap := cleared_capacity (c := c) s size
  rw [← hcap]
  have hcell : ∀ i < (Core.cleared c s size).capacity,
      (Core.cleared c s size).tags.cell i = empty := by
    intro i hi
    rw [htags]
    exact if_pos hi
  exact
    { count_eq := hcount
      capacity_eq := rfl
      size_eq := hinv.size_eq
      tag := hcell
      sentinel := fun i hge hlt => hinv.valid.sentinel i (hinv.size_eq ▸ hge) (hinv.size_eq ▸ hlt)
      absent := fun fuel key hfuel =>
        hinv.lookup_of_empty (fun i hi => hcell i (hinv.size_eq ▸ hi)) hfuel key }

variable [DecidableEq K]

/-- `Clear` with a size does its work exactly if the size does not bring the
capacity down, or the assertions are compiled out, as the header's never are. -/
theorem clear_blank_iff (hs : Reachable c s) {size : ℕ} (hpos : 0 < size) :
    (∃ t, s.clear c fuel size = .ok t ∧ Blank c (adjustCapacity c.mode size) t) ↔
      (c.bDebug = true → s.capacity ≤ adjustCapacity c.mode size) := by
  have h := hs.inv
  have hblank := h.cleared_blank size
  rw [if_neg hpos.ne'] at hblank
  rw [h.clear_eq size]
  constructor
  · intro hclear hdebug
    obtain ⟨t, hrun, -⟩ := hclear
    obtain ⟨⟨⟩, hassert, -⟩ := Exec.bind_eq_ok.mp hrun
    rcases Exec.assert_eq_ok.mp hassert hdebug with hz | hle
    · omega
    · exact hle
  · intro hok
    rw [Exec.assert_eq_ok.mpr fun hdebug => .inr (hok hdebug), Exec.ok_bind]
    exact ⟨_, rfl, hblank⟩

theorem clear_blank_iff_constantHash : ∃ s t : Core ℕ ℕ,
    Reachable (constantHash .map .fast false) s ∧ s.count = 2 ∧ s.tags.cell 0 = tombstone ∧
    s.clear (constantHash .map .fast false) 0 8192 = .ok t ∧
    Blank (constantHash .map .fast false) 8192 t := by
  have hruns : (after (constantHash .map .fast false) 100 zeroedMemory
      [.add false 1 10, .add false 2 20, .add false 3 30, .remove 1] >>= fun s =>
        .ok (s.capacity, s.count, s.tags.cell 0)) = .ok (4096, 2, tombstone) := by
    decide +kernel
  obtain ⟨s, hafter, hruns⟩ := Exec.bind_eq_ok.mp hruns
  simp only [Except.ok.injEq, Prod.mk.injEq] at hruns
  obtain ⟨hcap, hcount, hgrave⟩ := hruns
  have hs : Reachable (constantHash .map .fast false) s := reachable_of_after hafter
  have hpos : 0 < 8192 := by decide
  obtain ⟨t, hclear, hblank⟩ : ∃ t, s.clear (constantHash .map .fast false) 0 8192 = .ok t ∧
      Blank (constantHash .map .fast false) 8192 t :=
    (clear_blank_iff hs hpos).mpr fun _ => by rw [hcap]; decide
  exact ⟨s, t, hs, hcount, hgrave, hclear, hblank⟩

/-- After `Resize(8192)`, `Clear(1)` fails the assertion. -/
theorem clear_fails_after_resize : ∃ (s t : Core ℕ ℕ) (trace : List (Op ℕ ℕ .map × Result ℕ × ℕ)),
    Constructed (constantHash .map .fast false) s ∧
    Run (Call (constantHash .map .fast false)) s trace t ∧
    trace.map Prod.fst = [.resize 8192] ∧
    ∀ fuel, t.clear (constantHash .map .fast false) fuel 1 = .error .assertion := by
  have hcap : ((after (constantHash .map .fast false) 100 zeroedMemory [.resize 8192]) >>=
      fun t => .ok t.capacity) = .ok 8192 := by
    decide +kernel
  obtain ⟨t, hafter, hcap⟩ := Exec.bind_eq_ok.mp hcap
  obtain ⟨s, trace, hstart, hrun, hops⟩ := after_run hafter
  have ht : Reachable (constantHash .map .fast false) t := ⟨s, trace, hstart, hrun⟩
  refine ⟨s, t, trace, hstart, hrun, hops, fun fuel => ?_⟩
  have hcap' : t.capacity = 8192 := by simpa using hcap
  rw [ht.inv.clear_eq, hcap']
  rfl

end Clear

section Rehash

variable [DecidableEq K]

/-- Every slot that is not live is `EMPTY`. -/
def Purged (s : Core K V) : Prop :=
  ∀ i < s.capacity, s.tags.cell i < 0x80 ∨ s.tags.cell i = empty

omit [DecidableEq K] in
theorem Table.purged_iff (h : s.Table c) : Purged s ↔ s.tags.Clean := by
  constructor
  · intro hp i hi
    rcases hp i (h.size_eq ▸ hi) with hlive | hempty
    · rintro hbad
      rw [hbad] at hlive
      exact absurd hlive (by decide)
    · rw [hempty]
      decide
  · intro hclean i hi
    rcases h.valid.tag i (h.size_eq.symm ▸ hi) with hlive | hempty | hbad
    · exact .inl hlive
    · exact .inr hempty
    · exact absurd hbad (hclean i (h.size_eq.symm ▸ hi))

/-- `Rehash` leaves no tombstone exactly if the container is not empty or had
none: an empty one is left as it is. -/
theorem rehash_purges_iff (hnot : c.type ≠ .index) (hs : Reachable c s)
    (hrun : s.rehash c fuel = .ok t) :
    ((∀ i < t.capacity, t.tags.cell i ≠ tombstone) ∧ Purged t) ↔
      s.count ≠ 0 ∨ ∀ i < s.capacity, s.tags.cell i ≠ tombstone := by
  have h := hs.inv
  by_cases hcount : s.count = 0
  · obtain rfl : s = t := by simpa [rehash, hcount] using hrun
    rw [h.purged_iff, TagArray.Clean, h.size_eq]
    simp [hcount]
  · have hclean : t.tags.Clean ∧ t.Inv c := by
      rw [rehash, if_pos hcount, h.size_eq] at hrun
      have hr : Rebuilt c s t :=
        (h.stored.rehashInternal_ensures fuel fun hx => absurd hx hnot).value hrun
      refine ⟨hr.clean, ?_⟩
      have hrehash : Exec.Ensures (s.rehash c fuel) _ _ := h.rehash_ensures hnot
      have hr' : Resized c s 0 t := hrehash.value (by
        rw [rehash, if_pos hcount, h.size_eq]
        exact hrun)
      exact hr'.toInv
    obtain ⟨hclean, ht⟩ := hclean
    refine iff_of_true ⟨?_, ht.purged_iff.mpr hclean⟩ (.inl hcount)
    rwa [TagArray.Clean, ht.size_eq] at hclean

theorem rehash_purges_iff_constantHash : ∃ s t : Core ℕ ℕ,
    Reachable (constantHash .map .fast false) s ∧ s.count = 1 ∧
    s.tags.cell 0 = tombstone ∧ s.rehash (constantHash .map .fast false) 4096 = .ok t ∧
    Purged t := by
  have hruns : ((after (constantHash .map .fast false) 100 zeroedMemory
      [.add false 1 10, .add false 2 20, .remove 1]) >>=
      fun s => .ok (s.count, s.capacity, s.tags.cell 0)) = .ok (1, 4096, tombstone) := by
    decide +kernel
  obtain ⟨s, hafter, hs⟩ := Exec.bind_eq_ok.mp hruns
  have hreach : Reachable (constantHash .map .fast false) s := reachable_of_after hafter
  simp only [Except.ok.injEq, Prod.mk.injEq] at hs
  obtain ⟨hcount, hcap, htag⟩ := hs
  have hrehash : Exec.Ensures (s.rehash (constantHash .map .fast false) 4096) _ _ :=
    hreach.inv.rehash_ensures (by decide)
  obtain ⟨t, ht, -⟩ := hrehash.returns fun e he =>
    he.2 ⟨by rw [hcap]; decide, hcap.le, by rw [hcount, hcap]; decide⟩
  exact ⟨s, t, hreach, hcount, htag, ht,
    ((rehash_purges_iff (by decide) hreach ht).mpr (.inl (by omega))).2⟩

/-- `Rehash` on a container that was emptied by `Remove` leaves the tombstone. -/
theorem rehash_keeps_tombstone : ∃ (s t : Core ℕ ℕ) (trace : List (Op ℕ ℕ .map × Result ℕ × ℕ)),
    Constructed (constantHash .map .fast false) s ∧
    Run (Call (constantHash .map .fast false)) s trace t ∧
    trace.map Prod.fst = [.add false 1 10, .remove 1, .rehash] ∧ t.tags.cell 0 = tombstone := by
  have hruns : ((after (constantHash .map .fast false) 100 zeroedMemory
      [.add false 1 10, .remove 1, .rehash]) >>= fun t => .ok (t.tags.cell 0)) = .ok tombstone := by
    decide +kernel
  obtain ⟨t, hafter, htag⟩ := Exec.bind_eq_ok.mp hruns
  obtain ⟨s, trace, hstart, hrun, hops⟩ := after_run hafter
  exact ⟨s, t, trace, hstart, hrun, hops, by simpa using htag⟩

end Rehash

end Core

end SimdHash
