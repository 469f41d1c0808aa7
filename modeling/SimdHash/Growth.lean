import SimdHash.Containers
import SimdHash.Rebuild

/-! Construction, `Resize`, `Rehash`, `Clear` and `max_load_factor`. -/

namespace SimdHash

open OpenAddressing TagVector

theorem FloatValue.accepted?_bounds {mlf : FloatValue} {q : ℚ} (h : mlf.accepted? = some q) :
    LoadFactor.min ≤ q ∧ q ≤ LoadFactor.max := by
  cases mlf with
  | finite value =>
    simp only [FloatValue.accepted?, Option.ite_none_right_eq_some, Option.some.injEq] at h
    exact h.2 ▸ h.1
  | infinite negative => cases h
  | nan => cases h

theorem FloatValue.accepted?_getD (q : ℚ) : (FloatValue.finite q).accepted?.getD q = q := by
  simp only [FloatValue.accepted?]
  split_ifs <;> rfl

theorem EntryArray.adjustSize_of_page {α : Type} {bDebug : Bool} {array : EntryArray α} {size : ℕ}
    (h : pageSize ∣ size) : adjustSize bDebug array size =
      (Exec.assert bDebug (size > array.size) >>= fun _ => .ok { array with size }) := by
  have hmod : size % pageSize = 0 := Nat.mod_eq_zero_of_dvd h
  simp [adjustSize, hmod]

namespace Core

variable {K V : Type} {c : Template K} {s t : Core K V} {fuel size : ℕ}

section Factor

theorem setMaxLoadFactor_sameShape (mlf : FloatValue) : SameShape s (s.setMaxLoadFactor mlf) :=
  ⟨rfl, rfl, rfl, rfl⟩

theorem Inv.setMaxLoadFactor (h : s.Inv c) (mlf : FloatValue) : (s.setMaxLoadFactor mlf).Inv c := by
  have hfactor : LoadFactor.min ≤ mlf.accepted?.getD s.maxLoadFactor ∧
      mlf.accepted?.getD s.maxLoadFactor ≤ LoadFactor.max := by
    cases hq : mlf.accepted? with
    | none => exact ⟨h.factor_min, h.factor_max⟩
    | some q => exact FloatValue.accepted?_bounds hq
  exact
    { h.toLayout.congr (setMaxLoadFactor_sameShape mlf) rfl rfl rfl rfl with
      count_eq := h.count_eq
      factor_min := hfactor.1
      factor_max := hfactor.2
      limit_eq := rfl }

end Factor

section Capacity

theorem initCapacity_geometry (s : Core K V) (size : ℕ) : (s.initCapacity c size).Geometry c := by
  by_cases hf : c.mode = .fast
  · rw [initCapacity, if_pos hf]
    exact
      { isCapacity := adjustCapacity_isCapacity c.mode size
        powerOfTwo := fun hm => by
          obtain ⟨k, -, -, hk, -⟩ := adjustCapacity_powerOfTwo hm size
          exact ⟨k, hk⟩
        mask := fun _ => rfl
        multiplier := fun hn => absurd hf hn }
  · rw [initCapacity, if_neg hf]
    exact
      { isCapacity := adjustCapacity_isCapacity c.mode size
        powerOfTwo := fun hm => by
          obtain ⟨k, -, -, hk, -⟩ := adjustCapacity_powerOfTwo hm size
          exact ⟨k, hk⟩
        mask := fun hn => absurd hn hf
        multiplier := fun _ => rfl }

@[simp] theorem initCapacity_capacity : (s.initCapacity c size).capacity = adjustCapacity c.mode size := by
  rw [initCapacity]
  split_ifs <;> rfl

@[simp] theorem initCapacity_tags : (s.initCapacity c size).tags = s.tags := by
  rw [initCapacity]
  split_ifs <;> rfl

@[simp] theorem initCapacity_entries : (s.initCapacity c size).entries = s.entries := by
  rw [initCapacity]
  split_ifs <;> rfl

@[simp] theorem initCapacity_realIndex : (s.initCapacity c size).realIndex = s.realIndex := by
  rw [initCapacity]
  split_ifs <;> rfl

@[simp] theorem initCapacity_count : (s.initCapacity c size).count = s.count := by
  rw [initCapacity]
  split_ifs <;> rfl

@[simp] theorem initCapacity_factor : (s.initCapacity c size).maxLoadFactor = s.maxLoadFactor := by
  rw [initCapacity]
  split_ifs <;> exact FloatValue.accepted?_getD s.maxLoadFactor

theorem initCapacity_limit : (s.initCapacity c size).countGrowthLimit =
    growthLimit (adjustCapacity c.mode size) s.maxLoadFactor := by
  have hfactor : (s.initCapacity c size).maxLoadFactor = s.maxLoadFactor := initCapacity_factor
  rw [← hfactor, initCapacity]
  split_ifs <;> rfl

end Capacity

section Resize

/-- `s` with the storage that its capacity asks for. -/
def grown (c : Template K) (s : Core K V) : Core K V :=
  { s with
    entries := if c.type = .index then s.entries else { s.entries with size := s.capacity }
    realIndex := if c.type = .index then { s.realIndex with size := s.capacity } else s.realIndex }

/-- The number of cells of the array that follows the capacity. -/
def storage (c : Template K) (s : Core K V) : ℕ :=
  if c.type = .index then s.realIndex.size else s.entries.size

theorem Layout.storage_eq (h : s.Layout c) : s.storage c = s.capacity := by
  by_cases ht : c.type = .index
  · rw [storage, if_pos ht, h.realIndex_size ht]
  · rw [storage, if_neg ht, h.entries_size ht]

theorem resize_of_gt (h : s.capacity > adjustCapacity c.mode size) :
    s.resize c fuel size = .ok s := if_pos h

theorem resize_eq (h : ¬ s.capacity > adjustCapacity c.mode size) :
    s.resize c fuel size =
      (Exec.assert (c.bDebug && c.mode = .resizeOnlyEmpty) (s.count = 0) >>= fun _ =>
        if adjustCapacity c.mode size = s.tags.size then .ok (s.initCapacity c size)
        else
          Exec.assert c.bDebug (adjustCapacity c.mode size > s.storage c) >>= fun _ =>
            if s.count = 0 then
              Exec.assert c.bDebug (adjustCapacity c.mode size > s.tags.size) >>= fun _ =>
                .ok (emptied (grown c (s.initCapacity c size)))
            else rehashInternal c fuel (grown c (s.initCapacity c size))
              (adjustCapacity c.mode size)) := by
  rw [resize, if_neg h]
  have hchosen : (s.initCapacity c size).capacity = adjustCapacity c.mode size :=
    initCapacity_capacity
  have hcap := adjustCapacity_isCapacity c.mode size
  generalize adjustCapacity c.mode size = capacity at hchosen hcap
  have htags : TagArray.init c.bDebug { s.tags with size := capacity } =
      .ok (TagArray.fill { s.tags with size := capacity }) := init_eq hcap
  have hpage {α : Type} (array : EntryArray α) : EntryArray.adjustSize c.bDebug array capacity =
      (Exec.assert c.bDebug (capacity > array.size) >>= fun _ =>
        .ok { array with size := capacity }) := EntryArray.adjustSize_of_page hcap.page
  by_cases hm : c.mode = .resizeOnlyEmpty <;> by_cases ht : c.type = .index <;>
    by_cases hc : s.count = 0 <;>
    simp [hm, ht, hc, hchosen, hpage, htags, TagArray.adjustSize, storage, grown, emptied,
      -initCapacity_capacity]

theorem Geometry.grown (h : s.Geometry c) : (grown c s).Geometry c :=
  ⟨h.isCapacity, h.powerOfTwo, h.mask, h.multiplier⟩

theorem entriesHeld_grown (s : Core K V) (size : ℕ) :
    (grown c (s.initCapacity c size)).entriesHeld c = s.entriesHeld c := by
  have htags : (grown c (s.initCapacity c size)).tags = s.tags := initCapacity_tags
  have hslots : (grown c (s.initCapacity c size)).slots c = s.slots c := by
    refine slots_congr htags ?_ ?_
    · by_cases ht : c.type = .index <;> simp [Core.grown, ht]
    · by_cases ht : c.type = .index <;> simp [Core.grown, ht]
  rw [entriesHeld, entriesHeld, hslots, htags]

structure Resized (c : Template K) (s : Core K V) (size : ℕ) (t : Core K V) : Prop
    extends Inv c t where
  capacity : t.capacity = max s.capacity (adjustCapacity c.mode size)
  factor : t.maxLoadFactor = s.maxLoadFactor
  held : t.entriesHeld c = s.entriesHeld c
  count : t.count = s.count
  dense : c.type = .index → t.entries = s.entries
  clean : s.tags.Clean → t.tags.Clean

/-- `Resize` runs out of fuel, or trips over the assertion of `ResizeOnlyEmpty`;
neither happens to an empty container. -/
def ResizeFault (c : Template K) (fuel size count : ℕ) (e : Fault) : Prop :=
  count ≠ 0 ∧ (Stuck (adjustCapacity c.mode size) fuel count e ∨
    e = .assertion ∧ c.mode = .resizeOnlyEmpty)

theorem Inv.emptied_grown (hmin : LoadFactor.min ≤ s.maxLoadFactor)
    (hmax : s.maxLoadFactor ≤ LoadFactor.max) (hp : c.type = .index → pageSize ∣ s.entries.size) :
    Inv c (Core.emptied (Core.grown c (s.initCapacity c size))) := by
  refine Inv.emptied (initCapacity_geometry s size).grown ?_ ?_ ?_ ?_ ?_ ?_
  · intro ht
    simp [Core.grown, ht]
  · intro ht
    simp [Core.grown, ht]
  · intro ht
    simpa [Core.grown, ht] using hp ht
  · simpa [Core.grown] using hmin
  · simpa [Core.grown] using hmax
  · have hlimit : (s.initCapacity c size).countGrowthLimit =
        growthLimit (adjustCapacity c.mode size) s.maxLoadFactor := initCapacity_limit
    simpa [Core.grown] using hlimit

theorem Inv.stored_grown (h : s.Inv c) (hle : s.capacity ≤ adjustCapacity c.mode size) :
    Stored c (grown c (s.initCapacity c size)) := by
  have htags : (Core.grown c (s.initCapacity c size)).tags = s.tags := initCapacity_tags
  have hcount : (Core.grown c (s.initCapacity c size)).count = s.count := initCapacity_count
  refine
    { geometry := (initCapacity_geometry s size).grown
      entries_size := ?_
      realIndex_size := ?_
      index_count := ?_
      index_page := ?_
      index_dense := ?_
      tags_le := ?_
      tagged := ?_
      count_eq := ?_ }
  · intro ht
    simp [Core.grown, ht]
  · intro ht
    simp [Core.grown, ht]
  · intro ht
    simpa [Core.grown, ht] using h.index_count ht
  · intro ht
    simpa [Core.grown, ht] using h.index_page ht
  · intro ht
    rw [entriesHeld_grown, hcount, h.entriesHeld_index ht]
    simp [Core.grown, ht]
  · rw [htags, h.size_eq]
    simpa [Core.grown] using hle
  · intro i e hlive
    rw [htags]
    refine h.tagged i e ?_
    rw [← hlive]
    refine (congrFun (slots_congr htags ?_ ?_) i).symm <;>
      by_cases ht : c.type = .index <;> simp [Core.grown, ht]
  · rw [hcount, entriesHeld_grown, h.count_eq]

theorem Inv.initCapacity_sameShape (h : s.Inv c) (heq : adjustCapacity c.mode size = s.capacity) :
    SameShape s (s.initCapacity c size) := by
  refine ⟨initCapacity_capacity.trans heq, ?_, ?_, by rw [initCapacity_tags]⟩
  · by_cases hf : c.mode = .fast
    · rw [(initCapacity_geometry s size).mask hf, h.geometry.mask hf, initCapacity_capacity, heq]
    · rw [initCapacity, if_neg hf]
      rfl
  · by_cases hf : c.mode = .fast
    · rw [initCapacity, if_pos hf]
      rfl
    · rw [(initCapacity_geometry s size).multiplier hf, h.geometry.multiplier hf,
        initCapacity_capacity, heq]

theorem Inv.resized_same (h : s.Inv c) (heq : adjustCapacity c.mode size = s.capacity) :
    Resized c s size (s.initCapacity c size) := by
  have hheld : (s.initCapacity c size).entriesHeld c = s.entriesHeld c := by
    rw [entriesHeld, entriesHeld, initCapacity_tags, slots_congr initCapacity_tags] <;> simp
  exact
    { h.toLayout.congr (h.initCapacity_sameShape heq) initCapacity_tags initCapacity_entries
        initCapacity_realIndex initCapacity_count with
      count_eq := by rw [hheld, initCapacity_count, h.count_eq]
      factor_min := initCapacity_factor.symm ▸ h.factor_min
      factor_max := initCapacity_factor.symm ▸ h.factor_max
      limit_eq := by rw [initCapacity_limit, initCapacity_capacity, initCapacity_factor]
      capacity := by rw [initCapacity_capacity, heq, max_self]
      factor := initCapacity_factor
      held := hheld
      count := initCapacity_count
      dense := fun _ => initCapacity_entries
      clean := fun h => initCapacity_tags.symm ▸ h }

theorem Inv.resized_empty (h : s.Inv c) (hle : s.capacity ≤ adjustCapacity c.mode size)
    (hcount : s.count = 0) :
    Resized c s size (Core.emptied (Core.grown c (s.initCapacity c size))) := by
  have hheld : s.entriesHeld c = 0 := Multiset.card_eq_zero.mp (h.count_eq ▸ hcount)
  exact
    { Inv.emptied_grown h.factor_min h.factor_max h.index_page with
      capacity := initCapacity_capacity.trans (max_eq_right hle).symm
      factor := initCapacity_factor
      held := by rw [entriesHeld_emptied, hheld]
      count := hcount.symm
      dense := fun ht => by simp [Core.emptied, Core.grown, ht]
      clean := fun _ => TagArray.fill_clean _ }

theorem Inv.resized_rebuilt (h : s.Inv c) (hlt : s.capacity < adjustCapacity c.mode size) :
    Exec.Ensures (rehashInternal c fuel (grown c (s.initCapacity c size))
        (adjustCapacity c.mode size))
      (Resized c s size) (Stuck (adjustCapacity c.mode size) fuel s.count) := by
  have hcap : (grown c (s.initCapacity c size)).capacity = adjustCapacity c.mode size :=
    initCapacity_capacity
  have hcount : (grown c (s.initCapacity c size)).count = s.count := initCapacity_count
  have htags : (grown c (s.initCapacity c size)).tags = s.tags := initCapacity_tags
  have hrun := (h.stored_grown hlt.le).rehashInternal_ensures fuel fun _ => by
    rw [hcap, htags, h.size_eq]
    exact hlt
  rw [hcap, hcount] at hrun
  refine hrun.imp ?_ fun e he => he
  intro t ht
  have hheld : t.entriesHeld c = s.entriesHeld c := ht.held.trans (entriesHeld_grown s size)
  have hcap' : t.capacity = adjustCapacity c.mode size := ht.capacity.trans hcap
  have hfactor : t.maxLoadFactor = s.maxLoadFactor := ht.factor.trans initCapacity_factor
  have hlimit : t.countGrowthLimit = growthLimit (adjustCapacity c.mode size) s.maxLoadFactor :=
    ht.limit.trans initCapacity_limit
  exact
    { ht.toLayout with
      count_eq := by rw [ht.count, hcount, hheld, h.count_eq]
      factor_min := hfactor ▸ h.factor_min
      factor_max := hfactor ▸ h.factor_max
      limit_eq := by rw [hlimit, hcap', hfactor]
      capacity := by rw [hcap', max_eq_right hlt.le]
      factor := hfactor
      held := hheld
      count := ht.count.trans hcount
      dense := fun hx => (ht.dense hx).trans (by simp [Core.grown, hx])
      clean := fun _ => ht.clean }

theorem Inv.resize_ensures (h : s.Inv c) (size : ℕ) :
    Exec.Ensures (s.resize c fuel size) (Resized c s size) (ResizeFault c fuel size s.count) := by
  by_cases hgt : s.capacity > adjustCapacity c.mode size
  · rw [resize_of_gt hgt]
    exact
      { h with
        capacity := (max_eq_left hgt.le).symm
        factor := rfl
        held := rfl
        count := rfl
        dense := fun _ => rfl
        clean := fun h => h }
  have hle := not_lt.mp hgt
  rw [resize_eq hgt]
  refine (Exec.ensures_assert ?_).bind ?_
  · intro hmode hcount
    simp only [Bool.and_eq_true, decide_eq_true_eq] at hmode
    exact ⟨hcount, .inr ⟨rfl, hmode.2⟩⟩
  intro _ _
  by_cases hsame : adjustCapacity c.mode size = s.tags.size
  · rw [if_pos hsame]
    exact h.resized_same (hsame.trans h.size_eq)
  have hlt : s.capacity < adjustCapacity c.mode size :=
    lt_of_le_of_ne hle fun heq => hsame (heq.symm.trans h.size_eq.symm)
  have hstorage : adjustCapacity c.mode size > s.storage c := by rwa [h.storage_eq]
  have htags : adjustCapacity c.mode size > s.tags.size := by rwa [h.size_eq]
  rw [if_neg hsame, Exec.assert_of _ hstorage, Exec.ok_bind]
  by_cases hc : s.count = 0
  · rw [if_pos hc, Exec.assert_of _ htags, Exec.ok_bind]
    exact h.resized_empty hle hc
  · rw [if_neg hc]
    exact (h.resized_rebuilt hlt).imp (fun t ht => ht) fun e he => ⟨hc, .inl he⟩

theorem resize_unallocated (hcap : s.capacity = 0) (htags : s.tags.size = 0) (hcount : s.count = 0)
    (size : ℕ) : s.resize c fuel size =
      (Exec.assert c.bDebug (adjustCapacity c.mode size > s.storage c) >>= fun _ =>
        .ok (emptied (grown c (s.initCapacity c size)))) := by
  have hpos : 0 < adjustCapacity c.mode size :=
    (show 0 < minSize by decide).trans_le (adjustCapacity_isCapacity c.mode size).min_le
  have hassert : Exec.assert (c.bDebug && c.mode = .resizeOnlyEmpty) (s.count = 0) = .ok () :=
    Exec.assert_of _ hcount
  have htable : Exec.assert c.bDebug (adjustCapacity c.mode size > s.tags.size) = .ok () :=
    Exec.assert_of _ (by omega)
  rw [resize_eq (by omega), hassert, Exec.ok_bind, if_neg (by omega), if_pos hcount, htable,
    Exec.ok_bind]

theorem emptied_grown_settings (s : Core K V) (size : ℕ) :
    (emptied (grown c (s.initCapacity c size))).capacity = adjustCapacity c.mode size ∧
    (emptied (grown c (s.initCapacity c size))).maxLoadFactor = s.maxLoadFactor :=
  ⟨initCapacity_capacity, initCapacity_factor⟩

end Resize

section Calls

theorem Inv.count_eq_zero (h : s.Inv c) (hc : s.count = 0) : s.entriesHeld c = 0 :=
  Multiset.card_eq_zero.mp (h.count_eq ▸ hc)

theorem Inv.not_live_of_count (h : s.Inv c) (hc : s.count = 0) (i : ℕ) (e : Entry K V) :
    s.slots c i ≠ .live e := by
  intro hlive
  have hmem : e ∈ s.entriesHeld c := mem_entriesHeld.mpr ⟨i, hlive⟩
  rw [h.count_eq_zero hc] at hmem
  exact Multiset.notMem_zero e hmem

theorem construct_ensures (memory : Memory K V) :
    Exec.Ensures (construct c fuel memory)
      (fun s => s.Inv c ∧ s.count = 0 ∧ s.tags.Clean ∧ s.capacity = minSize ∧
        s.maxLoadFactor = LoadFactor.def)
      (fun _ => False) := by
  have hmin : LoadFactor.min ≤ LoadFactor.def := by norm_num [LoadFactor.min, LoadFactor.def]
  have hmax : LoadFactor.def ≤ LoadFactor.max := by norm_num [LoadFactor.max, LoadFactor.def]
  have hsize : adjustCapacity c.mode minSize = minSize := adjustCapacity_of_le le_rfl
  have hzero : (unallocated memory).storage c = 0 := by
    rw [storage]
    split_ifs <;> rfl
  have hassert : Exec.assert c.bDebug
      (adjustCapacity c.mode minSize > (unallocated memory).storage c) = .ok () :=
    Exec.assert_of _ (by rw [hsize, hzero]; decide)
  obtain ⟨hcap, hfactor⟩ := emptied_grown_settings (c := c) (unallocated memory) minSize
  rw [construct, resize_unallocated rfl rfl rfl, hassert, Exec.ok_bind, Exec.ensures_ok]
  exact ⟨Inv.emptied_grown hmin hmax fun _ => dvd_zero _, rfl, TagArray.fill_clean _,
    hcap.trans hsize, hfactor⟩

theorem Inv.stored (h : s.Inv c) : s.Stored c where
  geometry := h.geometry
  entries_size := h.entries_size
  realIndex_size := h.realIndex_size
  index_count := h.index_count
  index_page := h.index_page
  index_dense := h.entriesHeld_index
  tags_le := h.size_eq.le
  tagged := h.tagged
  count_eq := h.count_eq

theorem Inv.rehash_ensures (h : s.Inv c) (ht : c.type ≠ .index) :
    Exec.Ensures (s.rehash c fuel)
      (fun t => Resized c s 0 t) (Stuck s.capacity fuel s.count) := by
  have hmax : max s.capacity (adjustCapacity c.mode 0) = s.capacity := by
    rw [adjustCapacity_of_le (Nat.zero_le _)]
    exact max_eq_left h.geometry.isCapacity.min_le
  by_cases hc : s.count = 0
  · rw [rehash, if_neg (not_not.mpr hc)]
    exact
      { h with
        capacity := hmax.symm
        factor := rfl
        held := rfl
        count := rfl
        dense := fun _ => rfl
        clean := fun h => h }
  · rw [rehash, if_pos hc, h.size_eq]
    refine (h.stored.rehashInternal_ensures fuel fun hx => absurd hx ht).mono fun t hr => ?_
    exact
      { hr.toLayout with
        count_eq := by rw [hr.count, hr.held, h.count_eq]
        factor_min := hr.factor ▸ h.factor_min
        factor_max := hr.factor ▸ h.factor_max
        limit_eq := by rw [hr.limit, hr.capacity, hr.factor, h.limit_eq]
        capacity := by rw [hr.capacity, hmax]
        factor := hr.factor
        held := hr.held
        count := hr.count
        dense := fun hx => absurd hx ht
        clean := fun _ => hr.clean }

def cleared (c : Template K) (s : Core K V) (size : ℕ) : Core K V :=
  if size > 0 ∧ adjustCapacity c.mode size ≠ s.capacity then
    emptied (grown c (initCapacity c { s with tags := s.tags.clear, capacity := 0, count := 0 } size))
  else emptied s

theorem Inv.cleared (h : s.Inv c) (size : ℕ) : (Core.cleared c s size).Inv c := by
  rw [Core.cleared]
  split_ifs
  · exact Inv.emptied_grown h.factor_min h.factor_max h.index_page
  · exact Inv.emptied h.geometry h.entries_size h.realIndex_size h.index_page h.factor_min
      h.factor_max h.limit_eq

theorem cleared_tags (s : Core K V) (size : ℕ) :
    (cleared c s size).tags = TagArray.fill { s.tags with size := (cleared c s size).capacity } ∧
    (cleared c s size).count = 0 := by
  rw [cleared]
  split_ifs
  · have htags : (initCapacity c { s with tags := s.tags.clear, capacity := 0, count := 0 } size).tags =
        s.tags.clear := initCapacity_tags
    refine ⟨?_, rfl⟩
    simp only [emptied, grown, htags]
    rfl
  · exact ⟨rfl, rfl⟩

theorem cleared_capacity (s : Core K V) (size : ℕ) : (cleared c s size).capacity =
    if size = 0 then s.capacity else adjustCapacity c.mode size := by
  rw [cleared]
  by_cases hnew : size > 0 ∧ adjustCapacity c.mode size ≠ s.capacity
  · rw [if_pos hnew, if_neg hnew.1.ne', (emptied_grown_settings _ size).1]
  · rw [if_neg hnew]
    split_ifs with hz
    · rfl
    · exact (not_not.mp fun hne => hnew ⟨Nat.pos_of_ne_zero hz, hne⟩).symm

theorem cleared_factor (s : Core K V) (size : ℕ) :
    (cleared c s size).maxLoadFactor = s.maxLoadFactor := by
  rw [cleared]
  split_ifs
  · exact (emptied_grown_settings _ size).2
  · rfl

/-- `Clear` never gives the storage behind the slots back, so a smaller size
trips over the assertion that the storage grows. -/
theorem Inv.clear_eq (h : s.Inv c) (size : ℕ) : s.clear c fuel size =
    (Exec.assert c.bDebug (size = 0 ∨ s.capacity ≤ adjustCapacity c.mode size) >>= fun _ =>
      .ok (Core.cleared c s size)) := by
  by_cases hnew : size > 0 ∧ adjustCapacity c.mode size ≠ s.capacity
  · have hrun := @resize_unallocated K V c { s with tags := s.tags.clear, capacity := 0, count := 0 }
      fuel rfl rfl rfl size
    have hstorage : storage c { s with tags := s.tags.clear, capacity := 0, count := 0 } =
        s.capacity := by
      by_cases ht : c.type = .index
      · rw [storage, if_pos ht]
        exact h.realIndex_size ht
      · rw [storage, if_neg ht]
        exact h.entries_size ht
    have hiff : (adjustCapacity c.mode size > s.capacity) ↔
        (size = 0 ∨ s.capacity ≤ adjustCapacity c.mode size) := by
      have hne := hnew.2
      have hpos := hnew.1
      omega
    simp only [clear, if_pos hnew, hrun, hstorage, Core.cleared, Exec.assert, hiff]
  · have hcap : IsCapacity s.tags.size := h.size_eq.symm ▸ h.geometry.isCapacity
    have hstate : { s with tags := s.tags.fill, count := 0 } = Core.emptied s := by
      rw [Core.emptied, ← h.size_eq]
    have hpass : Exec.assert c.bDebug (size = 0 ∨ s.capacity ≤ adjustCapacity c.mode size) =
        .ok () := by
      refine Exec.assert_of _ ?_
      by_cases hz : size = 0
      · exact .inl hz
      · exact .inr (not_not.mp fun hne => hnew ⟨Nat.pos_of_ne_zero hz, fun heq => hne heq.ge⟩)
    simp only [clear, if_neg hnew, init_eq hcap, Exec.ok_bind, hstate, hpass, Core.cleared]

/-- `Clear()` always succeeds; with a size it may trip over an assertion. -/
theorem Inv.clear_ensures (h : s.Inv c) (size : ℕ) :
    Exec.Ensures (s.clear c fuel size)
      (fun t => t.Inv c ∧ t.count = 0 ∧ t.tags.Clean ∧ t.maxLoadFactor = s.maxLoadFactor ∧
        (size = 0 → t.capacity = s.capacity))
      (fun e => e = .assertion ∧ size ≠ 0) := by
  rw [h.clear_eq size]
  refine (Exec.ensures_assert ?_).bind ?_
  · intro _ hsmall
    exact ⟨rfl, fun hz => hsmall (.inl hz)⟩
  · intro _ _
    obtain ⟨htags, hcount⟩ := cleared_tags (c := c) s size
    refine ⟨h.cleared size, hcount, ?_, cleared_factor s size, fun hz => ?_⟩
    · rw [htags]
      exact TagArray.fill_clean _
    · rw [cleared_capacity, if_pos hz]

end Calls

end Core

end SimdHash
