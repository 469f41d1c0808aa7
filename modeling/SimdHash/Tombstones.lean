import SimdHash.Sequence

/-! What a call does to the slots. It writes at most one of them, unless it
leaves a table without tombstones. -/

namespace SimdHash

open OpenAddressing TagVector Transition

namespace Core

variable {K V : Type} {c : Template K} {s t : Core K V} {fuel : ℕ}

section Grown

/-- `t` has no tombstones, or else the slots of `s`. -/
def Refilled (c : Template K) (s t : Core K V) : Prop :=
  t.tags.Clean ∨ SameShape s t ∧ t.slots c = s.slots c

theorem Inv.resize_refilled (h : s.Inv c) (size : ℕ) :
    Exec.Ensures (s.resize c fuel size) (Refilled c s) (fun _ => True) := by
  by_cases hgt : s.capacity > adjustCapacity c.mode size
  · rw [resize_of_gt hgt]
    exact .inr ⟨⟨rfl, rfl, rfl, rfl⟩, rfl⟩
  rw [resize_eq hgt]
  refine (Exec.ensures_assert fun _ _ => trivial).bind fun _ _ => ?_
  by_cases hsame : adjustCapacity c.mode size = s.tags.size
  · rw [if_pos hsame]
    refine .inr ⟨h.initCapacity_sameShape (hsame.trans h.size_eq), ?_⟩
    exact slots_congr initCapacity_tags (by simp) (by simp)
  rw [if_neg hsame]
  refine (Exec.ensures_assert fun _ _ => trivial).bind fun _ _ => ?_
  have hlt : s.capacity < adjustCapacity c.mode size :=
    lt_of_le_of_ne (not_lt.mp hgt) fun heq => hsame (heq.symm.trans h.size_eq.symm)
  by_cases hcount : s.count = 0
  · rw [if_pos hcount]
    refine (Exec.ensures_assert fun _ _ => trivial).bind fun _ _ => ?_
    exact .inl (TagArray.fill_clean _)
  · rw [if_neg hcount]
    have htags : (grown c (s.initCapacity c size)).tags = s.tags := initCapacity_tags
    have hcap : (grown c (s.initCapacity c size)).capacity = adjustCapacity c.mode size :=
      initCapacity_capacity
    have hrun := (h.stored_grown hlt.le).rehashInternal_ensures fuel fun _ => by
      rw [hcap, htags, h.size_eq]
      exact hlt
    rw [hcap] at hrun
    exact hrun.imp (fun t ht => .inl ht.clean) fun _ _ => trivial

theorem Inv.rehash_refilled (h : s.Inv c) (hnot : c.type ≠ .index) :
    Exec.Ensures (s.rehash c fuel) (fun t => t.tags.Clean ∨ t = s ∧ s.count = 0)
      (fun _ => True) := by
  by_cases hcount : s.count = 0
  · rw [rehash, if_neg (not_not.mpr hcount)]
    exact .inr ⟨rfl, hcount⟩
  · rw [rehash, if_pos hcount, h.size_eq]
    refine (h.stored.rehashInternal_ensures fuel fun hx => absurd hx hnot).imp ?_ fun _ _ => trivial
    exact fun t ht => .inl ht.clean

end Grown

section Filled

variable {bUnique bUpdate : Bool} {key : K} {value : V}

/-- The free slot that `key` was put in, and what `Add` makes of the table. -/
structure FilledAt (c : Template K) (s : Core K V) (bUnique : Bool) (key : K) (i : ℕ) (e : Entry K V)
    (t : Core K V) : Prop where
  shape : SameShape s t
  slot : s.FreeSlot c bUnique key i
  key_eq : e.key = key
  slots : t.slots c = Function.update (s.slots c) i (.live e)

theorem Inv.insert_filled [DecidableEq K] (h : s.Inv c) {i : ℕ} (hslot : s.FreeSlot c bUnique key i)
    (value : V) :
    Exec.Ensures (s.insert c fuel i key value)
      (fun t => t.tags.Clean ∨ ∃ e, FilledAt c s bUnique key i e t) (fun _ => True) := by
  have hsettings : SameSettings s (Core.paged c s) := paged_sameSettings
  have hlt : i < (Core.paged c s).tags.size := by
    rw [paged_tags]
    exact hslot.lt_size
  set e := newEntry c s i key value
  set u := Core.placed c (Core.paged c s) i e with hu
  have hfilled : FilledAt c s bUnique key i e u :=
    { shape :=
        { capacity := hsettings.capacity
          mask := hsettings.mask
          multiplier := hsettings.multiplier
          size := hsettings.size }
      slot := hslot
      key_eq := newEntry_key i key value
      slots := by rw [hu, h.paged.slots_placed hlt, slots_paged] }
  rw [insert_eq h hslot.lt_size]
  by_cases hlimit : s.count + 1 = s.countGrowthLimit
  · rw [if_pos hlimit]
    have hinv : u.Inv c := h.placed_paged hslot.lt_size hslot.not_live hslot.reached value
    refine (hinv.resize_refilled (s.capacity + 1)).mono fun t ht => ?_
    rcases ht with hclean | ⟨hshape, hslots⟩
    · exact .inl hclean
    · refine .inr ⟨e, ?_⟩
      exact
        { shape :=
            { capacity := hshape.capacity.trans hfilled.shape.capacity
              mask := hshape.mask.trans hfilled.shape.mask
              multiplier := hshape.multiplier.trans hfilled.shape.multiplier
              size := hshape.size.trans hfilled.shape.size }
          slot := hslot
          key_eq := hfilled.key_eq
          slots := hslots.trans hfilled.slots }
  · rw [if_neg hlimit]
    exact .inr ⟨e, hfilled⟩

variable [DecidableEq K]

theorem Inv.add_filled (h : s.Inv c) :
    Exec.Ensures (s.add c fuel bUnique bUpdate key value)
      (fun r => r.1.1 = true →
        r.2.tags.Clean ∨ ∃ i e, FilledAt c s bUnique key i e r.2) (fun _ => True) := by
  have hinsert {i : ℕ} (hslot : s.FreeSlot c bUnique key i) :
      Exec.Ensures (s.insert c fuel i key value >>= fun t => .ok ((true, s.count), t))
        (fun r => r.1.1 = true →
          r.2.tags.Clean ∨ ∃ i e, FilledAt c s bUnique key i e r.2) (fun _ => True) := by
    refine (h.insert_filled hslot value).bind fun t ht _ => ?_
    rcases ht with hclean | ⟨e, he⟩
    · exact .inl hclean
    · exact .inr ⟨i, e, he⟩
  cases bUnique with
  | true =>
    refine Exec.Ensures.bind ((h.toTable.probeUnique_ensures key).imp (fun r hr => hr) ?_) ?_
    · exact fun _ _ => trivial
    · intro _ hr
      obtain ⟨i, rfl, hslot⟩ := hr
      exact hinsert hslot
  | false =>
    refine Exec.Ensures.bind ((h.probeChecked_ensures key).imp (fun r hr => hr) ?_) ?_
    · exact fun _ _ => trivial
    · intro _ hr
      rcases hr with ⟨i, rfl, hslot⟩ | ⟨i, rfl, hslot⟩
      · obtain ⟨-, -, -, -, e, hlive, hkey⟩ := hslot
        cases bUpdate with
        | true => simp [h.update_eq value hlive]
        | false => simp
      · exact hinsert hslot

end Filled

section Calls

inductive Touched (c : Template K) (s : Core K V) : Op K V c.type → Result V → Core K V → Prop
  | purged {op : Op K V c.type} {r : Result V} {t : Core K V} (hclean : t.tags.Clean) :
      Touched c s op r t
  | kept {op : Op K V c.type} {r : Result V} {t : Core K V} (hshape : SameShape s t)
      (hslots : t.slots c = s.slots c) : Touched c s op r t
  | revalued {op : Op K V c.type} {r : Result V} {t : Core K V} {i : ℕ} {e e' : Entry K V}
      (hshape : SameShape s t) (hlive : s.slots c i = .live e) (hkey : e'.key = e.key)
      (hslots : t.slots c = Function.update (s.slots c) i (.live e')) : Touched c s op r t
  | filled {op : Op K V c.type} {r : Result V} {t : Core K V} {bUnique : Bool} {key : K} {i : ℕ}
      {e : Entry K V} (h : FilledAt c s bUnique key i e t) : Touched c s op r t
  | buried {key : K} {offered : c.type ≠ .index} {t : Core K V} {i : ℕ} {e : Entry K V}
      (hshape : SameShape s t) (hlive : s.slots c i = .live e) (hkey : e.key = key)
      (hslots : t.slots c = Function.update (s.slots c) i .tombstone) :
      Touched c s (.remove key offered) (.bool true) t

variable [DecidableEq K] {op : Op K V c.type} {r : Result V}

omit [DecidableEq K] in
theorem Added.touched {bUnique bUpdate b : Bool} {key : K} {value : V} {index : ℕ}
    (h : Added c s bUnique bUpdate key value ((b, index), t))
    (hfilled : b = true → t.tags.Clean ∨ ∃ i e, FilledAt c s bUnique key i e t) :
    Touched c s op r t := by
  cases h with
  | inserted hslot ht =>
    rcases hfilled rfl with hclean | ⟨i, e, he⟩
    · exact .purged hclean
    · exact .filled he
  | @found i e hchecked hslot hlive hkey =>
    split_ifs with hmap
    · have hslots := slots_revalued (by simp [hmap.2]) { e with value } hlive
      exact .revalued revalued_sameShape hlive (show ({ e with value } : Entry K V).key = e.key from rfl)
        hslots
    · exact .kept ⟨rfl, rfl, rfl, rfl⟩ rfl

theorem Inv.step_touched (h : s.Inv c) (hrun : step c fuel s op = .ok (r, t)) :
    Touched c s op r t := by
  have hsame {op : Op K V c.type} {r : Result V} : Touched c s op r s :=
    .kept ⟨rfl, rfl, rfl, rfl⟩ rfl
  cases op with
  | add bUnique key value =>
    obtain ⟨⟨⟨b, index⟩, u⟩, hadd, hout⟩ := Exec.bind_eq_ok.mp hrun
    obtain ⟨rfl, rfl⟩ : Result.bool b = r ∧ u = t := by simpa using hout
    exact Added.touched (h.add_ensures.value hadd) (h.add_filled.value hadd)
  | addOrUpdate key value offered =>
    obtain ⟨⟨⟨b, index⟩, u⟩, hadd, hout⟩ := Exec.bind_eq_ok.mp hrun
    obtain ⟨rfl, rfl⟩ : Result.bool b = r ∧ u = t := by simpa using hout
    exact Added.touched (h.add_ensures.value hadd) (h.add_filled.value hadd)
  | tryAdd key value offered =>
    obtain ⟨⟨⟨b, index⟩, u⟩, hadd, hout⟩ := Exec.bind_eq_ok.mp hrun
    obtain ⟨rfl, rfl⟩ : Result.added b index = r ∧ u = t := by simpa using hout
    exact Added.touched (h.add_ensures.value hadd) (h.add_filled.value hadd)
  | remove key offered =>
    obtain ⟨⟨b, u⟩, hremove, hout⟩ := Exec.bind_eq_ok.mp hrun
    obtain ⟨rfl, rfl⟩ : Result.bool b = r ∧ u = t := by simpa using hout
    cases (h.remove_ensures offered).value hremove with
    | removed hmet hlive hkey => exact .buried buried_sameShape hlive hkey slots_buried
    | absent hunmet => exact hsame
  | contains key =>
    obtain ⟨found, -, hout⟩ := Exec.bind_eq_ok.mp hrun
    obtain ⟨-, rfl⟩ : Result.bool found.isSome = r ∧ s = t := by simpa using hout
    exact hsame
  | tryGetValue key offered =>
    obtain ⟨found, -, hout⟩ := Exec.bind_eq_ok.mp hrun
    cases found with
    | some realIndex =>
      obtain ⟨entry, -, hout⟩ := Exec.bind_eq_ok.mp hout
      obtain ⟨-, rfl⟩ : Result.value (some entry.value) = r ∧ s = t := by simpa using hout
      exact hsame
    | none =>
      obtain ⟨-, rfl⟩ : Result.value none = r ∧ s = t := by simpa using hout
      exact hsame
  | tryGetIndex key offered =>
    obtain ⟨found, -, hout⟩ := Exec.bind_eq_ok.mp hrun
    obtain ⟨-, rfl⟩ : Result.index found = r ∧ s = t := by simpa using hout
    exact hsame
  | resize size =>
    obtain ⟨u, hresize, hout⟩ := Exec.bind_eq_ok.mp hrun
    obtain ⟨-, rfl⟩ : Result.void = r ∧ u = t := by simpa using hout
    rcases (h.resize_refilled size).value hresize with hclean | ⟨hshape, hslots⟩
    · exact .purged hclean
    · exact .kept hshape hslots
  | rehash offered =>
    obtain ⟨u, hrehash, hout⟩ := Exec.bind_eq_ok.mp hrun
    obtain ⟨-, rfl⟩ : Result.void = r ∧ u = t := by simpa using hout
    rcases (h.rehash_refilled offered).value hrehash with hclean | ⟨rfl, -⟩
    · exact .purged hclean
    · exact hsame
  | clear size =>
    obtain ⟨u, hclear, hout⟩ := Exec.bind_eq_ok.mp hrun
    obtain ⟨-, rfl⟩ : Result.void = r ∧ u = t := by simpa using hout
    obtain ⟨-, -, hclean, -⟩ := (h.clear_ensures size).value hclear
    exact .purged hclean
  | setMaxLoadFactor mlf =>
    obtain ⟨-, rfl⟩ : Result.void = r ∧ s.setMaxLoadFactor mlf = t := by simpa [step] using hrun
    exact .kept (setMaxLoadFactor_sameShape mlf) (slots_congr rfl rfl rfl)

end Calls

end Core

end SimdHash
