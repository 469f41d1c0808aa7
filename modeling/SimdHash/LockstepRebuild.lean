import SimdHash.Lockstep

/-! Rebuilds, `Resize` and `Clear` in step. -/

namespace SimdHash

open Exec OpenAddressing TagVector

namespace Core

variable {K V : Type} {c : Template K} {mode : Mode} {D : Prop} {s s' t t' : Core K V}
  {used : ℕ → Prop} {fuel : ℕ}

section Moves

/-- Slot `i` of the old table has an entry that is yet to be moved. -/
def Waits (prevTags : TagArray) (i : ℕ) : Prop := i < prevTags.size ∧ prevTags.cell i < 0x80

/-- The states of two rebuilds between two slots of the old table. -/
structure Moving (c : Template K) (mode : Mode) (D : Prop) (r r' : TagArray × Core K V) :
    Prop where
  prev : r.1.Alike D r'.1
  alike : Alike c mode D (fun j => Waits r.1 j ∨ r.2.Occupied j) r.2 r'.2

variable {prevTags prevTags' : TagArray} {e e' : Entry K V} {i : ℕ}

theorem waits_of_set {j : ℕ} (h : Waits (Block.set prevTags i TagVector.empty) j) :
    Waits prevTags j := by
  obtain ⟨hj, hlive⟩ := h
  have hji : j ≠ i := by
    rintro rfl
    simp only [Block.set_cell, Function.update_self] at hlive
    exact absurd hlive (by decide)
  exact ⟨hj, by simpa [hji] using hlive⟩

theorem waits_of_vacated (h : vacated prevTags i = .ok false) : Waits prevTags i := by
  by_cases hi : i < prevTags.size
  · rw [vacated, if_neg (not_le.mpr hi), Block.read_of_lt hi, Exec.ok_bind] at h
    refine ⟨hi, (land_empty_eq_zero _).mp ?_⟩
    simpa using h
  · rw [vacated, if_pos (not_lt.mp hi)] at h
    cases h

theorem vacated_congr (h : prevTags.Alike D prevTags') (i : ℕ) :
    vacated prevTags' i = vacated prevTags i := by
  simp only [vacated, h.size, h.read_eq]

theorem Alike.read_entry (hnot : c.type ≠ .index) (h : Alike c mode D used s s') (hi : used i) :
    Agree (Entry.Alike c D) (s.entries.read i) (s'.entries.read i) := by
  have hsize := h.entries_size hnot
  by_cases hlt : i < s.entries.size
  · rw [Block.read_of_lt hlt, Block.read_of_lt (hsize.symm ▸ hlt)]
    exact h.entries i hi
  · rw [Block.read, Block.read, if_neg hlt, if_neg (hsize.symm ▸ hlt)]
    rfl

theorem Alike.occupy (hnot : c.type ≠ .index) (h : Alike c mode D used s s')
    {entries entries' : EntryArray (Entry K V)} {used' : ℕ → Prop} (i : ℕ) (tag : UInt8)
    (count : ℕ) (hsize : entries'.size = entries.size) (hwhole : D → entries' = entries)
    (hentries : ∀ j, used' j → Entry.Alike c D (entries.cell j) (entries'.cell j)) :
    Alike c mode D used' { s with tags := s.tags.set i tag, entries, count }
      { s' with tags := s'.tags.set i tag, entries := entries', count } where
  tags := h.tags.set i tag
  adjust := h.adjust
  capacity := h.capacity
  factor := h.factor
  limit := h.limit
  count := rfl
  entries_size _ := hsize
  realIndex_size hx := absurd hx hnot
  refs hx := absurd hx hnot
  entries := hentries
  whole hD := ⟨hwhole hD, (h.whole hD).2⟩

theorem Moving.place (hnot : c.type ≠ .index) (h : Moving c mode D (prevTags, s) (prevTags', s'))
    (he : Entry.Alike c D e e') (i : ℕ) (tag : UInt8) :
    Agree (fun t t' => Moving c mode D (prevTags, t) (prevTags', t'))
      (s.place i tag e) (s'.place i tag e') := by
  have hsize := h.alike.entries_size hnot
  refine (h.alike.tags.write i tag).bind ?_
  intro tags tags' htags
  obtain ⟨rfl, rfl⟩ := htags
  by_cases hi : i < s.entries.size
  · rw [Block.write_of_lt hi, Block.write_of_lt (hsize.symm ▸ hi), h.alike.count]
    refine ⟨h.prev, h.alike.occupy hnot i tag (s.count + 1) hsize ?_ ?_⟩
    · intro hD
      rw [(h.alike.whole hD).1, he.2 hD]
    · intro j hj
      by_cases hji : j = i
      · simpa [hji] using he
      · simp only [Block.set_cell, Function.update_of_ne hji]
        refine h.alike.entries j (hj.imp_right fun hocc => ?_)
        exact ⟨hocc.1, by simpa [hji] using hocc.2⟩
  · rw [Block.write, Block.write, if_neg hi, if_neg (hsize.symm ▸ hi)]
    rfl

theorem Moving.vacate (h : Moving c mode D (prevTags, s) (prevTags', s')) (i : ℕ) :
    Moving c mode D (Block.set prevTags i TagVector.empty, s)
      (Block.set prevTags' i TagVector.empty, s') where
  prev := h.prev.set i _
  alike := { h.alike with entries := fun j hj => h.alike.entries j (hj.imp_left waits_of_set) }

theorem Moving.displace (hnot : c.type ≠ .index)
    (h : Moving c mode D (prevTags, s) (prevTags', s')) (he : Entry.Alike c D e e') (tag : UInt8)
    (hi : Waits prevTags i) :
    Agree (Moving c mode D) (displace c fuel prevTags s tag e i)
      (displace (c.withMode mode) fuel prevTags' s' tag e' i) := by
  refine agree_loop (I := fun st st' => ∃ prevTags s tag e i prevTags' s' e',
    st = (prevTags, s, tag, e, i) ∧ st' = (prevTags', s', tag, e', i) ∧
    Moving c mode D (prevTags, s) (prevTags', s') ∧ Entry.Alike c D e e' ∧ Waits prevTags i)
    ⟨prevTags, s, tag, e, i, prevTags', s', e', rfl, rfl, h, he, hi⟩ ?_ fuel
  intro st st' hI
  obtain ⟨prevTags, s, tag, e, i, prevTags', s', e', rfl, rfl, h, he, hi⟩ := hI
  simp only [displaceRound, Block.read_of_lt hi.1, h.prev.read_eq, Exec.ok_bind]
  refine (h.prev.write i TagVector.empty).bind ?_
  intro next next' hnext
  obtain ⟨rfl, rfl⟩ := hnext
  refine (h.alike.read_entry hnot (.inl hi)).bind ?_
  intro saved saved' hsaved
  refine ((h.vacate i).place hnot he i tag).bind ?_
  intro t t' ht
  rw [hsaved.key, ht.alike.findEmpty_eq]
  refine (Agree.of_eq rfl).bind ?_
  intro k _ hk
  subst hk
  rw [vacated_congr ht.prev]
  obtain ⟨b, hb, -⟩ := vacated_eq (Block.set prevTags i TagVector.empty) t.entries.cell k
  simp only [hb, Exec.ok_bind]
  by_cases hvac : b = true
  · rw [if_pos hvac, if_pos hvac]
    refine (ht.place hnot hsaved k _).bind ?_
    intro u u' hu
    exact .inr hu
  · rw [if_neg hvac, if_neg hvac]
    rw [eq_false_of_ne_true hvac] at hb
    exact .inl ⟨_, t, _, saved, k, _, t', saved', rfl, rfl, ht, hsaved, waits_of_vacated hb⟩

theorem Moving.rehashSlot (hnot : c.type ≠ .index)
    (h : Moving c mode D (prevTags, s) (prevTags', s')) (i : ℕ) :
    Agree (Moving c mode D) (rehashSlot c fuel i (prevTags, s))
      (rehashSlot (c.withMode mode) fuel i (prevTags', s')) := by
  simp only [Core.rehashSlot, h.prev.read_eq]
  by_cases hlt : i < prevTags.size
  swap
  · rw [Block.read, if_neg hlt]
    rfl
  rw [Block.read_of_lt hlt, Exec.ok_bind, Exec.ok_bind]
  by_cases hlive : prevTags.cell i < 0x80
  swap
  · have hmask : prevTags.cell i &&& TagVector.empty ≠ 0 := (land_empty_eq_zero _).not.mpr hlive
    rw [if_pos hmask, if_pos hmask]
    exact h
  have hmask : ¬ prevTags.cell i &&& TagVector.empty ≠ 0 :=
    not_not.mpr ((land_empty_eq_zero _).mpr hlive)
  have hwaits : Waits prevTags i := ⟨hlt, hlive⟩
  rw [if_neg hmask, if_neg hmask]
  refine (h.alike.read_entry hnot (.inl hwaits)).bind ?_
  intro e e' he
  rw [he.key, h.alike.findEmpty_eq]
  refine (Agree.of_eq rfl).bind ?_
  intro k _ hk
  subst hk
  refine (h.prev.write i TagVector.empty).bind ?_
  intro next next' hnext
  obtain ⟨rfl, rfl⟩ := hnext
  have hnext := h.vacate i
  by_cases hki : k = i
  · rw [if_pos hki, if_pos hki]
    refine (h.alike.tags.write i _).bind ?_
    intro tags tags' htags
    obtain ⟨rfl, rfl⟩ := htags
    rw [h.alike.count]
    refine ⟨hnext.prev, h.alike.occupy hnot i _ (s.count + 1) (h.alike.entries_size hnot)
      (fun hD => (h.alike.whole hD).1) ?_⟩
    intro j hj
    by_cases hji : j = i
    · exact hji ▸ h.alike.entries i (.inl hwaits)
    · refine hnext.alike.entries j (hj.imp_right fun hocc => ?_)
      exact ⟨hocc.1, by simpa [hji] using hocc.2⟩
  · rw [if_neg hki, if_neg hki, vacated_congr hnext.prev]
    obtain ⟨b, hb, -⟩ := vacated_eq (Block.set prevTags i TagVector.empty) s.entries.cell k
    simp only [hb, Exec.ok_bind]
    by_cases hvac : b = true
    · rw [if_pos hvac, if_pos hvac]
      refine (hnext.place hnot he k _).bind ?_
      intro t t' ht
      exact ht
    · rw [if_neg hvac, if_neg hvac]
      rw [eq_false_of_ne_true hvac] at hb
      exact hnext.displace hnot he _ (waits_of_vacated hb)

end Moves

section Shapes

theorem inUse_congr (htags : t.tags = s.tags) (hcount : t.count = s.count) :
    t.InUse c = s.InUse c := by
  funext j
  simp only [InUse, Occupied, htags, hcount]

theorem not_occupied_emptied (i : ℕ) : ¬ (emptied s).Occupied i := by
  intro hocc
  obtain ⟨e, hlive⟩ := (occupied_iff (c := ⟨.map, .fast, false, false, fun _ => 0⟩)).mp hocc
  exact slots_emptied e hlive

theorem not_inUse_emptied (j : ℕ) : ¬ (emptied s).InUse c j := by
  rw [InUse]
  split_ifs
  · exact Nat.not_lt_zero j
  · exact not_occupied_emptied j

theorem Alike.emptied {used' : ℕ → Prop} (h : Alike c mode D used s s')
    (hused : ∀ j, used' j → used j) : Alike c mode D used' (emptied s) (emptied s') where
  tags := by
    simp only [Core.emptied, h.capacity]
    exact TagArray.alike_fill (fun hD => by rw [h.tags.whole hD]) s.capacity
  adjust := h.adjust
  capacity := h.capacity
  factor := h.factor
  limit := h.limit
  count := rfl
  entries_size := h.entries_size
  realIndex_size := h.realIndex_size
  refs _ i hocc := absurd hocc (not_occupied_emptied i)
  entries j hj := h.entries j (hused j hj)
  whole := h.whole

theorem Alike.setMaxLoadFactor (h : Alike c mode D used s s') (mlf : FloatValue) :
    Alike c mode D used (s.setMaxLoadFactor mlf) (s'.setMaxLoadFactor mlf) where
  tags := h.tags
  adjust := h.adjust
  capacity := h.capacity
  factor := by simp only [Core.setMaxLoadFactor, h.factor]
  limit := by simp only [Core.setMaxLoadFactor, h.factor, h.capacity]
  count := h.count
  entries_size := h.entries_size
  realIndex_size := h.realIndex_size
  refs := h.refs
  entries := h.entries
  whole := h.whole

theorem Alike.initCapacity (hmode : c.mode.Interchangeable mode) (h : Alike c mode D used s s')
    (size : ℕ) : Alike c mode D used (s.initCapacity c size)
      (s'.initCapacity (c.withMode mode) size) := by
  have hcapacity : (s'.initCapacity (c.withMode mode) size).capacity =
      (s.initCapacity c size).capacity := by
    simp only [initCapacity_capacity, hmode.adjustCapacity_eq]
  refine
    { tags := ?_
      adjust := Geometry.adjust_congr hmode (initCapacity_geometry s size)
        (initCapacity_geometry s' size) hcapacity
      capacity := hcapacity
      factor := ?_
      limit := ?_
      count := ?_
      entries_size := ?_
      realIndex_size := ?_
      refs := ?_
      entries := ?_
      whole := ?_ }
  · simpa only [initCapacity_tags] using h.tags
  · simpa only [initCapacity_factor] using h.factor
  · rw [initCapacity_limit, initCapacity_limit, h.factor, hmode.adjustCapacity_eq]
  · simpa only [initCapacity_count] using h.count
  · simpa only [initCapacity_entries] using h.entries_size
  · simpa only [initCapacity_realIndex] using h.realIndex_size
  · simpa only [Occupied, initCapacity_realIndex, initCapacity_tags] using h.refs
  · simpa only [initCapacity_entries] using h.entries
  · simpa only [initCapacity_entries, initCapacity_realIndex] using h.whole

theorem Alike.grown (h : Alike c mode D used s s') :
    Alike c mode D used (grown c s) (grown (c.withMode mode) s') where
  tags := h.tags
  adjust := h.adjust
  capacity := h.capacity
  factor := h.factor
  limit := h.limit
  count := h.count
  entries_size ht := by simp only [Core.grown, if_neg ht, h.capacity]
  realIndex_size ht := by simp only [Core.grown, if_pos ht, h.capacity]
  refs ht i hocc := by
    simp only [Core.grown, if_pos ht]
    exact h.refs ht i hocc
  entries j hj := by
    by_cases ht : c.type = .index
    · simpa only [Core.grown, if_pos ht] using h.entries j hj
    · simpa only [Core.grown, if_neg ht] using h.entries j hj
  whole hD := by
    obtain ⟨hentries, hreal⟩ := h.whole hD
    simp only [Core.grown, hentries, hreal, h.capacity, and_self]

theorem Alike.storage_eq (h : Alike c mode D used s s') :
    s'.storage (c.withMode mode) = s.storage c := by
  by_cases ht : c.type = .index
  · rw [storage, storage, if_pos ht, if_pos ht, h.realIndex_size ht]
  · rw [storage, storage, if_neg ht, if_neg ht, h.entries_size ht]

end Shapes

section Rebuilds

theorem Alike.reindexKey (ht : c.type = .index) (h : Alike c mode D used s s') {n : ℕ}
    (hn : used n) (hlt : n < s.entries.size) (hlt' : n < s'.entries.size) :
    Agree (fun t t' => Alike c mode D used t t' ∧ (t.count = s.count ∧ t.entries = s.entries) ∧
      t'.entries = s'.entries)
      (reindexKey c fuel n s) (reindexKey (c.withMode mode) fuel n s') := by
  have halike := h.entries n hn
  simp only [Core.reindexKey, Block.read_of_lt hlt, Block.read_of_lt hlt', Exec.ok_bind, halike.key,
    h.findEmpty_eq]
  refine (Agree.of_eq rfl).bind ?_
  intro i _ hi
  subst hi
  refine (h.tags.write i _).bind ?_
  intro tags tags' htags
  obtain ⟨rfl, rfl⟩ := htags
  have hsize := h.realIndex_size ht
  by_cases hi : i < s.realIndex.size
  · rw [Block.write_of_lt hi, Block.write_of_lt (hsize.symm ▸ hi)]
    refine ⟨?_, ⟨rfl, rfl⟩, rfl⟩
    refine
      { h with
        tags := h.tags.set i _
        adjust := h.adjust
        realIndex_size := fun _ => hsize
        refs := ?_
        whole := ?_ }
    · intro _ j hocc
      by_cases hji : j = i
      · simp [hji]
      · simpa [hji] using h.refs ht j ⟨hocc.1, by simpa [hji] using hocc.2⟩
    · intro hD
      exact ⟨(h.whole hD).1, by rw [(h.whole hD).2]⟩
  · rw [Block.write, Block.write, if_neg hi, if_neg (hsize.symm ▸ hi)]
    rfl

theorem Alike.reindex (ht : c.type = .index) (h : Alike c mode D (s.InUse c) s s')
    (hs : s.Stored c) (hs' : s'.Stored (c.withMode mode)) (hgrow : s.tags.size < s.capacity)
    (fuel : ℕ) : Agree (fun t t' => Alike c mode D (t.InUse c) t t')
      (Core.rehashInternal c fuel s s.capacity)
      (Core.rehashInternal (c.withMode mode) fuel s' s'.capacity) := by
  have hgrow' : s'.tags.size < s'.capacity := by
    rw [h.tags.size, h.capacity]
    exact hgrow
  have hused {u : Core K V} (hcount : u.count = s.count) : u.InUse c = fun j => j < s.count := by
    funext j
    rw [InUse, if_pos ht, hcount]
  rw [hused rfl] at h
  rw [hs.reindex_eq ht fuel hgrow, hs'.reindex_eq ht fuel hgrow', h.count]
  refine (agree_forRange (I := fun _ (u u' : Core K V) =>
    Alike c mode D (fun j => j < s.count) u u' ∧ (u.count = s.count ∧ u.entries = s.entries) ∧
      u'.entries = s'.entries) ?_ ?_).mono ?_
  · refine ⟨?_, ⟨rfl, rfl⟩, rfl⟩
    exact
      { h with
        tags := by
          rw [h.capacity]
          exact TagArray.alike_fill (fun hD => by rw [h.tags.whole hD]) s.capacity
        adjust := h.adjust
        count := rfl
        refs := fun _ i hocc => absurd hocc (not_occupied_emptied (s := s) i) }
  · intro n u u' hn hI
    obtain ⟨hu, ⟨hcount, hentries⟩, hentries'⟩ := hI
    have hlt : n < u.entries.size := by
      rw [hentries]
      exact hn.trans_le (hs.index_count ht)
    have hlt' : n < u'.entries.size := by
      rw [hentries']
      exact hn.trans_le (h.count ▸ hs'.index_count ht)
    refine (hu.reindexKey ht hn hlt hlt').mono ?_
    intro v v' hv
    obtain ⟨hv, ⟨hc, he⟩, he'⟩ := hv
    exact ⟨hv, ⟨hc.trans hcount, he.trans hentries⟩, he'.trans hentries'⟩
  · intro u u' hI
    obtain ⟨hu, ⟨hcount, -⟩, -⟩ := hI
    rwa [hused hcount]

theorem Alike.displaceAll (hnot : c.type ≠ .index) (h : Alike c mode D (s.InUse c) s s')
    (hs : s.Stored c) (hs' : s'.Stored (c.withMode mode)) (fuel : ℕ) :
    Agree (fun t t' => Alike c mode D (t.InUse c) t t') (Core.rehashInternal c fuel s s.capacity)
      (Core.rehashInternal (c.withMode mode) fuel s' s'.capacity) := by
  rw [hs.rehashInternal_eq hnot, hs'.rehashInternal_eq hnot, h.tags.size]
  have hstart : Moving c mode D (s.tags, Core.emptied s) (s'.tags, Core.emptied s') := by
    refine ⟨h.tags, h.emptied fun j hj => ?_⟩
    exact (inUse_slot hnot).mpr (hj.resolve_right (not_occupied_emptied j))
  refine (agree_forRange (I := fun _ r r' => Moving c mode D r r') hstart ?_).bind ?_
  · intro i r r' _ hr
    exact hr.rehashSlot hnot i
  · intro r r' hr
    rw [h.count, hr.alike.count]
    refine (Agree.of_eq rfl).bind fun _ _ _ => ?_
    exact
      { hr.alike with
        entries := fun j hj => hr.alike.entries j (.inr ((inUse_slot hnot).mp hj)) }

theorem Alike.rehashInternal (h : Alike c mode D (s.InUse c) s s') (hs : s.Stored c)
    (hs' : s'.Stored (c.withMode mode)) (hgrow : c.type = .index → s.tags.size < s.capacity)
    (fuel : ℕ) : Agree (fun t t' => Alike c mode D (t.InUse c) t t')
      (rehashInternal c fuel s s.capacity)
      (rehashInternal (c.withMode mode) fuel s' s'.capacity) := by
  by_cases ht : c.type = .index
  · exact h.reindex ht hs hs' (hgrow ht) fuel
  · exact h.displaceAll ht hs hs' fuel

end Rebuilds

end Core

end SimdHash
