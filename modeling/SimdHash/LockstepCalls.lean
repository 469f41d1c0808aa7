import SimdHash.LockstepRebuild

/-! Every call, and so every run of calls, of two containers in step. -/

namespace SimdHash

open Exec OpenAddressing TagVector

namespace Core

variable {K V : Type} {c : Template K} {mode : Mode} {D : Prop} {s s' t t' : Core K V}
  {used : ℕ → Prop} {fuel : ℕ}

section Sizing

theorem cleared_eq (s : Core K V) (size : ℕ) : cleared c s size =
    if size > 0 ∧ adjustCapacity c.mode size ≠ s.capacity then
      emptied (grown c (s.initCapacity c size)) else emptied s := by
  rw [cleared]
  split_ifs
  · simp only [initCapacity]
    split_ifs <;> rfl
  · rfl

theorem Settled.resize (hmode : c.mode.Interchangeable mode) (h : Settled c mode D s s')
    (size : ℕ) : Agree (Settled c mode D) (s.resize c fuel size)
      (s'.resize (c.withMode mode) fuel size) := by
  suffices hstep : Agree (fun t t' => Alike c mode D (t.InUse c) t t') (s.resize c fuel size)
      (s'.resize (c.withMode mode) fuel size) by
    refine (hstep.ensures (h.left.resize_ensures size) (h.right.resize_ensures size)).mono ?_
    intro t t' ht
    exact ⟨ht.1, ht.2.1.toInv, ht.2.2.toInv⟩
  have hsize := hmode.adjustCapacity_eq size
  by_cases hgt : s.capacity > adjustCapacity c.mode size
  · rw [resize_of_gt hgt, resize_of_gt (by rw [h.capacity, hsize]; exact hgt)]
    exact h.toAlike
  have hgt' : ¬ s'.capacity > adjustCapacity (c.withMode mode).mode size := by
    rw [h.capacity, hsize]
    exact hgt
  have hassert : Exec.assert ((c.withMode mode).bDebug &&
      (c.withMode mode).mode = .resizeOnlyEmpty) (s'.count = 0) =
        Exec.assert (c.bDebug && c.mode = .resizeOnlyEmpty) (s.count = 0) := by
    simp only [hmode.resizeOnlyEmpty_iff, h.count]
  have hinit := h.toAlike.initCapacity hmode size
  rw [resize_eq hgt, resize_eq hgt', hassert, hsize, h.tags.size, h.storage_eq, h.count]
  refine (Agree.of_eq rfl).bind fun _ _ _ => ?_
  by_cases hsame : adjustCapacity c.mode size = s.tags.size
  · rw [if_pos hsame, if_pos hsame]
    have hused : (s.initCapacity c size).InUse c = s.InUse c :=
      inUse_congr initCapacity_tags initCapacity_count
    rwa [agree_ok, hused]
  rw [if_neg hsame, if_neg hsame]
  refine (Agree.of_eq rfl).bind fun _ _ _ => ?_
  by_cases hcount : s.count = 0
  · rw [if_pos hcount, if_pos hcount]
    refine (Agree.of_eq rfl).bind fun _ _ _ => ?_
    exact hinit.grown.emptied fun j hj => absurd hj (not_inUse_emptied j)
  · rw [if_neg hcount, if_neg hcount]
    have hle := not_lt.mp hgt
    have hcap : (grown c (s.initCapacity c size)).capacity = adjustCapacity c.mode size :=
      initCapacity_capacity
    have hcap' : (grown (c.withMode mode) (s'.initCapacity (c.withMode mode) size)).capacity =
        adjustCapacity c.mode size := initCapacity_capacity.trans hsize
    have hused : (grown c (s.initCapacity c size)).InUse c = s.InUse c :=
      inUse_congr initCapacity_tags initCapacity_count
    have hgrown := hinit.grown
    rw [← hused] at hgrown
    have htags : (grown c (s.initCapacity c size)).tags = s.tags := initCapacity_tags
    have hlarger : (grown c (s.initCapacity c size)).tags.size <
        (grown c (s.initCapacity c size)).capacity := by
      rw [hcap, htags, h.left.size_eq]
      exact lt_of_le_of_ne hle fun heq => hsame (heq.symm.trans h.left.size_eq.symm)
    have hrun := hgrown.rehashInternal (h.left.stored_grown hle)
      (h.right.stored_grown (not_lt.mp hgt')) (fun _ => hlarger) fuel
    rwa [hcap, hcap'] at hrun

theorem Settled.rehash (hnot : c.type ≠ .index) (h : Settled c mode D s s') :
    Agree (Settled c mode D) (s.rehash c fuel) (s'.rehash (c.withMode mode) fuel) := by
  suffices hstep : Agree (fun t t' => Alike c mode D (t.InUse c) t t') (s.rehash c fuel)
      (s'.rehash (c.withMode mode) fuel) by
    have hleft : Ensures (s.rehash c fuel) _ _ := h.left.rehash_ensures hnot
    have hright : Ensures (s'.rehash (c.withMode mode) fuel) _ _ := h.right.rehash_ensures hnot
    refine (hstep.ensures hleft hright).mono ?_
    intro t t' ht
    exact ⟨ht.1, ht.2.1.toInv, ht.2.2.toInv⟩
  rw [Core.rehash, Core.rehash, h.count, h.left.size_eq, h.right.size_eq]
  by_cases hcount : s.count ≠ 0
  · rw [if_pos hcount, if_pos hcount]
    exact h.toAlike.rehashInternal h.left.stored h.right.stored (fun hx => absurd hx hnot) fuel
  · rw [if_neg hcount, if_neg hcount]
    exact h.toAlike

theorem Settled.clear (hmode : c.mode.Interchangeable mode) (h : Settled c mode D s s')
    (size : ℕ) : Agree (Settled c mode D) (s.clear c fuel size)
      (s'.clear (c.withMode mode) fuel size) := by
  have hsize := hmode.adjustCapacity_eq size
  have hcleared : Alike c mode D ((cleared c s size).InUse c) (cleared c s size)
      (cleared (c.withMode mode) s' size) := by
    rw [cleared_eq, cleared_eq, h.capacity, hsize]
    by_cases hnew : size > 0 ∧ adjustCapacity c.mode size ≠ s.capacity
    · rw [if_pos hnew, if_pos hnew]
      exact (h.toAlike.initCapacity hmode size).grown.emptied fun j hj =>
        absurd hj (not_inUse_emptied j)
    · rw [if_neg hnew, if_neg hnew]
      exact h.toAlike.emptied fun j hj => absurd hj (not_inUse_emptied j)
  rw [h.left.clear_eq, h.right.clear_eq, h.capacity, hsize]
  refine (Agree.of_eq rfl).bind fun _ _ _ => ?_
  exact ⟨hcleared, h.left.cleared size, h.right.cleared size⟩

end Sizing

section Adding

variable {i : ℕ} {e e' : Entry K V} {key : K}

theorem Settled.occupied (h : Settled c mode D s s') (hi : s.Occupied i) : s'.Occupied i := by
  have hlt := hi.1
  exact ⟨h.tags.size.symm ▸ hlt, h.tags.cell i (by omega) ▸ hi.2⟩

theorem Settled.record (h : Settled c mode D s s') (hi : s.Occupied i) :
    Entry.Alike c D (s.record c i) (s'.record (c.withMode mode) i) := by
  rw [Core.record, Core.record, h.ref_eq hi]
  exact h.entries _ (h.left.inUse_ref hi)

theorem Alike.paged (h : Alike c mode D used s s') :
    Alike c mode D used (paged c s) (paged (c.withMode mode) s') := by
  rw [paged_eq s, paged_eq s']
  refine { h with adjust := h.adjust, entries_size := ?_, entries := ?_, whole := ?_ }
  · intro ht
    simpa only [Core.paged, ht, false_and, if_false] using h.entries_size ht
  · simpa only [paged_cell] using h.entries
  · intro hD
    obtain ⟨hentries, hreal⟩ := h.whole hD
    refine ⟨?_, hreal⟩
    simp only [Core.paged, h.count, hentries]
    split_ifs
    · rfl
    · exact hentries

theorem Alike.newEntry (h : Alike c mode D used s s') (i : ℕ) (key : K) (value : V) :
    Entry.Alike c D (newEntry c s i key value) (newEntry (c.withMode mode) s' i key value) := by
  refine ⟨?_, fun hD => ?_⟩
  · rw [Entry.shown, Entry.shown, newEntry_key, newEntry_key]
    by_cases hmap : c.type = .map
    · rw [if_pos hmap, if_pos hmap, newEntry_value (c := c) hmap,
        newEntry_value (c := c.withMode mode) hmap]
    · rw [if_neg hmap, if_neg hmap]
  · simp only [Core.newEntry, (h.whole hD).1, h.count]

theorem Alike.placed (h : Alike c mode D (s.InUse c) s s') (he : Entry.Alike c D e e') (i : ℕ) :
    Alike c mode D ((placed c s i e).InUse c) (placed c s i e)
      (placed (c.withMode mode) s' i e') := by
  by_cases ht : c.type = .index
  · simp only [Core.placed, if_pos ht, he.key, h.count]
    refine
      { h with
        tags := h.tags.set i _
        adjust := h.adjust
        count := rfl
        entries_size := fun hx => absurd ht hx
        refs := ?_
        entries := ?_
        whole := ?_ }
    · intro _ j hocc
      by_cases hji : j = i
      · simp [hji]
      · simpa [hji] using h.refs ht j ⟨hocc.1, by simpa [hji] using hocc.2⟩
    · intro j hj
      by_cases hjc : j = s.count
      · simpa [hjc] using he
      · have hlt : j < s.count + 1 := (inUse_index ht).mp hj
        have hold := h.entries j ((inUse_index ht).mpr (by omega))
        simpa [hjc] using hold
    · intro hD
      obtain ⟨hentries, hreal⟩ := h.whole hD
      rw [hentries, hreal, he.2 hD]
      exact ⟨rfl, rfl⟩
  · simp only [Core.placed, if_neg ht, he.key, h.count]
    refine h.occupy ht i _ (s.count + 1) (h.entries_size ht) ?_ ?_
    · intro hD
      rw [(h.whole hD).1, he.2 hD]
    · intro j hj
      obtain ⟨hlt, htag⟩ := (inUse_slot ht).mp hj
      by_cases hji : j = i
      · simpa [hji] using he
      · have hold := h.entries j ((inUse_slot ht).mpr ⟨hlt, by simpa [hji] using htag⟩)
        simpa [hji] using hold

theorem Alike.revalued (h : Alike c mode D (s.InUse c) s s')
    (he : Entry.Alike c D e e') (i : ℕ) :
    Alike c mode D ((revalued s i e).InUse c) (revalued s i e) (revalued s' i e') := by
  refine { h with adjust := h.adjust, entries := ?_, whole := ?_ }
  · intro j hj
    by_cases hji : j = i
    · simpa [Core.revalued, hji] using he
    · simpa [Core.revalued, hji] using h.entries j hj
  · intro hD
    obtain ⟨hentries, hreal⟩ := h.whole hD
    simp only [Core.revalued, hentries, hreal, he.2 hD, and_self]

theorem Alike.buried (hnot : c.type ≠ .index) (h : Alike c mode D (s.InUse c) s s') (i : ℕ) :
    Alike c mode D ((buried s i).InUse c) (buried s i) (buried s' i) := by
  refine
    { h with
      tags := h.tags.set i _
      adjust := h.adjust
      count := congrArg (· - 1) h.count
      refs := fun hx => absurd hx hnot
      entries := ?_ }
  intro j hj
  obtain ⟨hlt, hlive⟩ := (inUse_slot hnot).mp hj
  have hji : j ≠ i := by
    rintro rfl
    simp only [Core.buried, Block.set_cell, Function.update_self] at hlive
    exact absurd hlive (by decide)
  exact h.entries j ((inUse_slot hnot).mpr ⟨hlt, by simpa [Core.buried, hji] using hlive⟩)

theorem Settled.live (h : Settled c mode D s s') (hlive : s.slots c i = .live e) :
    s'.ref (c.withMode mode) i = s.ref c i ∧
      ∃ e', s'.slots (c.withMode mode) i = .live e' ∧ Entry.Alike c D e e' := by
  have hocc : s.Occupied i := occupied_iff.mpr ⟨e, hlive⟩
  obtain ⟨hlt, htag⟩ := h.occupied hocc
  have halike := h.record hocc
  rw [(slots_eq_live.mp hlive).2.2] at halike
  exact ⟨h.ref_eq hocc, _, slots_eq_live.mpr ⟨hlt, htag, rfl⟩, halike⟩

theorem Settled.update (h : Settled c mode D s s') (hlive : s.slots c i = .live e) (value : V) :
    Agree (fun t t' => Alike c mode D (t.InUse c) t t') (s.update c (s.ref c i) value)
      (s'.update (c.withMode mode) (s.ref c i) value) := by
  obtain ⟨href, e', hlive', halike⟩ := h.live hlive
  have hright := h.right.update_eq value hlive'
  rw [href] at hright
  rw [h.left.update_eq value hlive, hright]
  by_cases hmap : c.type = .map
  · rw [if_pos hmap, if_pos hmap]
    refine h.toAlike.revalued ⟨?_, fun hD => by rw [halike.2 hD]⟩ i
    rw [Entry.shown, Entry.shown, halike.key]
  · rw [if_neg hmap, if_neg hmap]
    exact h.toAlike

variable [DecidableEq K] {bUnique : Bool}

theorem Settled.insert (hmode : c.mode.Interchangeable mode) (h : Settled c mode D s s')
    (hslot : s.FreeSlot c bUnique key i) (hslot' : s'.FreeSlot (c.withMode mode) bUnique key i)
    (value : V) : Agree (Settled c mode D) (s.insert c fuel i key value)
      (s'.insert (c.withMode mode) fuel i key value) := by
  have hused : (Core.paged c s).InUse c = s.InUse c := inUse_congr (paged_tags s) (paged_count s)
  have hpaged := h.toAlike.paged
  rw [← hused] at hpaged
  have hplaced := hpaged.placed (h.toAlike.newEntry i key value) i
  have hsettled : Settled c mode D _ _ :=
    ⟨hplaced, h.left.placed_paged hslot.lt_size hslot.not_live hslot.reached value,
      h.right.placed_paged hslot'.lt_size hslot'.not_live hslot'.reached value⟩
  rw [insert_eq h.left hslot.lt_size, insert_eq h.right hslot'.lt_size, h.count, h.limit,
    h.capacity]
  by_cases hlimit : s.count + 1 = s.countGrowthLimit
  · rw [if_pos hlimit, if_pos hlimit]
    exact hsettled.resize hmode (s.capacity + 1)
  · rw [if_neg hlimit, if_neg hlimit]
    exact hsettled

theorem Settled.add (hmode : c.mode.Interchangeable mode) (h : Settled c mode D s s')
    (bUnique bUpdate : Bool) (key : K) (value : V) :
    Agree (fun r r' => r'.1 = r.1 ∧ Alike c mode D (r.2.InUse c) r.2 r'.2)
      (s.add c fuel bUnique bUpdate key value)
      (s'.add (c.withMode mode) fuel bUnique bUpdate key value) := by
  have hfree {b : Bool} {i : ℕ} (hslot : s.FreeSlot c b key i)
      (hslot' : s'.FreeSlot (c.withMode mode) b key i) :
      Agree (fun r r' => r'.1 = r.1 ∧ Alike c mode D (r.2.InUse c) r.2 r'.2)
        (s.insert c fuel i key value >>= fun t => .ok ((true, s.count), t))
        (s'.insert (c.withMode mode) fuel i key value >>= fun t => .ok ((true, s'.count), t)) := by
    refine (h.insert hmode hslot hslot' value).bind fun t t' ht => ?_
    exact ⟨by rw [h.count], ht.toAlike⟩
  cases bUnique with
  | true =>
    have hleft : Ensures (s.probeUnique c fuel key) _ _ :=
      h.left.toTable.probeUnique_ensures key
    have hright : Ensures (s'.probeUnique (c.withMode mode) fuel key) _ _ :=
      h.right.toTable.probeUnique_ensures key
    rw [h.probeUnique_eq] at hright
    simp only [Core.add, if_true, h.probeUnique_eq]
    cases hprobe : s.probeUnique c fuel key with
    | error e => rfl
    | ok r =>
      obtain ⟨i, rfl, hslot⟩ := hleft.value hprobe
      obtain ⟨i', heq, hslot'⟩ := hright.value hprobe
      cases heq
      exact hfree hslot hslot'
  | false =>
    have hleft : Ensures (s.probeChecked c fuel key) _ _ := h.left.probeChecked_ensures key
    have hright : Ensures (s'.probeChecked (c.withMode mode) fuel key) _ _ :=
      h.right.probeChecked_ensures key
    rw [h.probeChecked_eq] at hright
    simp only [Core.add, Bool.false_eq_true, if_false, h.probeChecked_eq]
    cases hprobe : s.probeChecked c fuel key with
    | error e => rfl
    | ok r =>
      rcases hleft.value hprobe with ⟨i, rfl, hfound⟩ | ⟨i, rfl, hslot⟩
      · obtain ⟨-, -, -, -, e, hlive, -⟩ := hfound
        simp only [Exec.ok_bind]
        cases bUpdate with
        | true =>
          refine Agree.bind (h.update hlive value) ?_
          intro t t' ht
          exact ⟨rfl, ht⟩
        | false => exact ⟨rfl, h.toAlike⟩
      · rcases hright.value hprobe with ⟨i', heq, -⟩ | ⟨i', heq, hslot'⟩
        · cases heq
        · cases heq
          exact hfree hslot hslot'

end Adding

section Steps

variable [DecidableEq K]

theorem Settled.remove (hnot : c.type ≠ .index) (h : Settled c mode D s s') (key : K) :
    Agree (fun r r' => r'.1 = r.1 ∧ Alike c mode D (r.2.InUse c) r.2 r'.2)
      (s.remove c fuel key) (s'.remove (c.withMode mode) fuel key) := by
  rw [Core.remove, Core.remove, h.findEntry_eq]
  refine (Agree.of_eq rfl).bind fun r _ hr => ?_
  subst hr
  cases r with
  | some i =>
    refine (h.tags.write i _).bind fun tags tags' htags => ?_
    obtain ⟨rfl, rfl⟩ := htags
    exact ⟨rfl, h.toAlike.buried hnot i⟩
  | none => exact ⟨rfl, h.toAlike⟩

theorem Settled.tryGetValue (hmap : c.type = .map) (h : Settled c mode D s s') (key : K) :
    Agree (fun r r' => r'.1 = r.1 ∧ Alike c mode D (r.2.InUse c) r.2 r'.2)
      (Core.step c fuel s (.tryGetValue key hmap))
      (Core.step (c.withMode mode) fuel s' (.tryGetValue key hmap)) := by
  simp only [Core.step, h.findEntry_eq]
  cases hfind : s.findEntry c fuel key with
  | error e => rfl
  | ok r =>
    cases (h.left.looked_ensures key).value hfind with
    | @found i e hmet hlive hkey =>
      obtain ⟨href, e', hlive', halike⟩ := h.live hlive
      have hread := h.left.read_found hlive
      have hread' := h.right.read_found hlive'
      rw [href] at hread'
      have hshown := halike.1
      rw [Entry.shown, Entry.shown, if_pos hmap, if_pos hmap, Prod.mk.injEq,
        Option.some.injEq] at hshown
      simp only [Exec.ok_bind, hread, hread', hshown.2]
      exact ⟨rfl, h.toAlike⟩
    | absent hunmet => exact ⟨rfl, h.toAlike⟩

/-- Every call gives the same result on both sides, or fails alike. -/
theorem Settled.step (hmode : c.mode.Interchangeable mode) (h : Settled c mode D s s')
    (op : Op K V c.type) :
    Agree (fun r r' => r'.1 = r.1 ∧ Settled c mode D r.2 r'.2) (step c fuel s op)
      (step (c.withMode mode) fuel s' op) := by
  suffices hstep : Agree (fun r r' => r'.1 = r.1 ∧ Alike c mode D (r.2.InUse c) r.2 r'.2)
      (Core.step c fuel s op) (Core.step (c.withMode mode) fuel s' op) by
    refine (hstep.ensures (h.left.step_ensures op) (h.right.step_ensures op)).mono ?_
    intro r r' hr
    obtain ⟨⟨hret, halike⟩, hleft, hright⟩ := hr
    exact ⟨hret, halike, hleft.inv h.left, hright.inv h.right⟩
  cases op with
  | add bUnique key value =>
    refine (h.add hmode bUnique false key value).bind fun r r' hr => ?_
    exact ⟨congrArg (fun ret => Result.bool ret.1) hr.1, hr.2⟩
  | addOrUpdate key value offered =>
    refine (h.add hmode false true key value).bind fun r r' hr => ?_
    exact ⟨congrArg (fun ret => Result.bool ret.1) hr.1, hr.2⟩
  | tryAdd key value offered =>
    refine (h.add hmode false true key value).bind fun r r' hr => ?_
    exact ⟨congrArg (fun ret => Result.added ret.1 ret.2) hr.1, hr.2⟩
  | remove key offered =>
    refine (h.remove offered key).bind fun r r' hr => ?_
    exact ⟨by rw [hr.1], hr.2⟩
  | contains key =>
    simp only [Core.step, h.findEntry_eq]
    refine (Agree.of_eq rfl).bind fun r _ hr => ?_
    subst hr
    exact ⟨rfl, h.toAlike⟩
  | tryGetValue key offered => exact h.tryGetValue offered key
  | tryGetIndex key offered =>
    simp only [Core.step, h.findEntry_eq]
    refine (Agree.of_eq rfl).bind fun r _ hr => ?_
    subst hr
    exact ⟨rfl, h.toAlike⟩
  | resize size =>
    exact (h.resize hmode size).bind fun t t' ht => ⟨rfl, ht.toAlike⟩
  | rehash offered => exact (h.rehash offered).bind fun t t' ht => ⟨rfl, ht.toAlike⟩
  | clear size => exact (h.clear hmode size).bind fun t t' ht => ⟨rfl, ht.toAlike⟩
  | setMaxLoadFactor mlf => exact ⟨rfl, h.toAlike.setMaxLoadFactor mlf⟩

theorem Settled.call (hmode : c.mode.Interchangeable mode) (h : Settled c mode D s s')
    {op : Op K V c.type} {out : Result V × ℕ} (hcall : Call c s op out t) :
    ∃ t', Call (c.withMode mode) s' op out t' ∧ Settled c mode D t t' := by
  obtain ⟨fuel, hstep, hcount⟩ := hcall
  obtain ⟨r, hstep', hret, ht⟩ := (h.step hmode op).value hstep
  exact ⟨r.2, ⟨fuel, by rw [hstep', ← hret], by rw [ht.count, hcount]⟩, ht⟩

theorem Settled.runOps (hmode : c.mode.Interchangeable mode) (h : Settled c mode D s s')
    (ops : List (Op K V c.type)) :
    Agree (fun r r' => r'.1 = r.1 ∧ Settled c mode D r.2 r'.2) (runOps c fuel s ops)
      (runOps (c.withMode mode) fuel s' ops) := by
  induction ops generalizing s s' with
  | nil => exact ⟨rfl, h⟩
  | cons op rest ih =>
    refine (h.step hmode op).bind fun r r' hr => ?_
    obtain ⟨hret, ht⟩ := hr
    refine (ih ht).bind fun p p' hp => ?_
    obtain ⟨htrace, hu⟩ := hp
    exact ⟨by rw [hret, htrace, ht.count], hu⟩

end Steps

end Core

end SimdHash
