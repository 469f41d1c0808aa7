import SimdHash.Lifetime
import SimdHash.Limits

/-! With room enough, a container that allocates does what the container does
whose allocations are not looked at. -/

namespace SimdHash

open Transition

namespace PageBlocks

variable {p : PageBlocks} {n size : ℕ} {h : Heap} {rest : Multiset ℕ}

theorem copyPages_fits (hroom : n - p.size / pageSize ≤ h.room) :
    ∃ r, p.copyPages n (fun _ => none, h) = .ok r ∧
      h.room = r.2.room + (n - p.size / pageSize) := by
  induction n with
  | zero => exact ⟨_, rfl, by simp⟩
  | succ n ih =>
    obtain ⟨r, hrun, hused⟩ := ih (by omega)
    rw [copyPages_succ hrun]
    by_cases hold : n < p.size / pageSize
    · rw [if_pos hold]
      refine ⟨_, rfl, ?_⟩
      show h.room = r.2.room + _
      omega
    · rw [if_neg hold]
      cases halloc : r.2.alloc with
      | none =>
        have hnone := Heap.alloc_eq_none.mp halloc
        omega
      | some r' =>
        obtain ⟨-, hroom'⟩ := Heap.alloc_live halloc
        refine ⟨_, rfl, ?_⟩
        show h.room = r'.2.room + _
        omega

/-- The table, and the pages that are new. -/
theorem Full.adjustSize_fits (hp : p.Full) {asked : ℕ}
    (hsize : (if asked % pageSize ≠ 0 then asked + (pageSize - asked % pageSize) else asked) = size)
    (hlive : h.live.val = p.blocks + rest) :
    Heap.Fits (1 + (size / pageSize - p.size / pageSize)) h (p.adjustSize asked h) := by
  intro hroom
  have hleaves := hp.adjustSize_leaves hsize hlive
  rw [adjustSize, hsize] at hleaves ⊢
  cases halloc : h.alloc with
  | none =>
    have hnone := Heap.alloc_eq_none.mp halloc
    omega
  | some r =>
    obtain ⟨table, h₁⟩ := r
    obtain ⟨-, hroom₁⟩ := Heap.alloc_live halloc
    have hpages : size / pageSize - p.size / pageSize ≤ h₁.room := by omega
    obtain ⟨r, hrun, hused⟩ := copyPages_fits hpages
    simp only [halloc, hrun] at hleaves ⊢
    rcases Heap.release_cases (σ := PageBlocks) (h := r.2) p.table with ⟨h₂, hfree, hroom₂⟩ | hbad
    · simp only [hfree, bind, Except.bind]
      refine ⟨_, rfl, ?_⟩
      show h.room ≤ h₂.room + _
      omega
    · simp only [hbad, bind, Except.bind] at hleaves
      exact hleaves.elim

end PageBlocks

namespace Blocks

variable {K V : Type} {c : Template K} {s t : Core K V} {b : Blocks} {h : Heap}
  {rest : Multiset ℕ} {capacity next size n : ℕ}

theorem Owned.adjustTags_fits (howned : Owned c capacity b h rest) :
    Heap.Fits 1 h (b.adjustTags h) := by
  intro hroom
  obtain ⟨h₁, hrun, -, hroom₁⟩ := Heap.release_live (σ := Blocks) howned.tags_live
  rw [adjustTags, hrun]
  cases halloc : h₁.alloc with
  | none =>
    have hnone := Heap.alloc_eq_none.mp halloc
    omega
  | some r =>
    obtain ⟨-, hroom₂⟩ := Heap.alloc_live halloc
    simp only [halloc, bind, Except.bind]
    refine ⟨_, rfl, ?_⟩
    show h.room ≤ r.2.room + 1
    omega

theorem Owned.rehashInternal_fits (howned : Owned c capacity b h rest) :
    Heap.Fits 1 h (b.rehashInternal c h) := by
  by_cases ht : c.type = .index
  · rw [rehashInternal, if_pos ht]
    exact howned.adjustTags_fits
  · rw [rehashInternal, if_neg ht]
    refine howned.give_tags.adjustTags_fits.bind (n := 0)
      (howned.give_tags.adjustTags_leaves (T := fun _ _ => True)) fun r hr _ => ?_
    have hlive : r.2.live.val = ↑b.tags.toList + (r.1.all + rest) := by
      rw [hr.live]
      abel
    obtain ⟨h', hrun, -, hroom⟩ := Heap.release_live (σ := Blocks) hlive
    simp only [hrun, bind, Except.bind]
    exact ⟨_, rfl, hroom.ge⟩

theorem Owned.adjustStorage_fits (howned : Owned c capacity b h rest) (hsize : pageSize ∣ size) :
    Heap.Fits (1 + (size / pageSize - capacity / pageSize)) h (b.adjustStorage c h size) := by
  have hround : (if size % pageSize ≠ 0 then size + (pageSize - size % pageSize) else size) = size :=
    if_neg (not_not.mpr (Nat.mod_eq_zero_of_dvd hsize))
  rw [← howned.storage]
  by_cases ht : c.type = .index
  · rw [adjustStorage, if_pos ht, Blocks.storage, if_pos ht]
    exact (howned.realIndex.adjustSize_fits hround howned.realIndex_live).lift
  · rw [adjustStorage, if_neg ht, Blocks.storage, if_neg ht]
    exact (howned.entries.adjustSize_fits hround howned.entries_live).lift

theorem Owned.resize_fits (howned : Owned c capacity b h rest)
    (hnext : next = if s.capacity > adjustCapacity c.mode size ∨
      adjustCapacity c.mode size = s.tags.size then capacity else adjustCapacity c.mode size) :
    Heap.Fits (2 + (next / pageSize - capacity / pageSize)) h (b.resize c s h size) := by
  have hcap : (s.initCapacity c size).capacity = adjustCapacity c.mode size :=
    Core.initCapacity_capacity
  have htags : (s.initCapacity c size).tags = s.tags := Core.initCapacity_tags
  rw [resize]
  by_cases hgt : s.capacity > adjustCapacity c.mode size
  · rw [if_pos hgt]
    exact Heap.fits_ok _ _
  simp only [if_neg hgt, hcap, htags]
  by_cases hsame : adjustCapacity c.mode size = s.tags.size
  · rw [if_pos hsame]
    exact Heap.fits_ok _ _
  rw [if_neg (not_or.mpr ⟨hgt, hsame⟩)] at hnext
  rw [if_neg hsame, ← hnext]
  have hpage : pageSize ∣ next := hnext ▸ (adjustCapacity_isCapacity c.mode size).page
  refine ((howned.adjustStorage_fits hpage).bind (n := 1) (howned.adjustStorage_leaves hpage)
    fun r hr => ?_).mono (by omega)
  obtain ⟨lost, -, hr⟩ := hr
  split_ifs
  · exact hr.adjustTags_fits
  · exact hr.rehashInternal_fits

theorem Owned.rehash_fits (howned : Owned c capacity b h rest) :
    Heap.Fits 1 h (b.rehash c s h) := by
  rw [rehash]
  split_ifs
  · exact howned.rehashInternal_fits
  · exact Heap.fits_ok _ _

theorem Owned.clear_fits (howned : Owned c s.capacity b h rest)
    (hnext : next = if size = 0 then s.capacity else adjustCapacity c.mode size) :
    Heap.Fits (2 + (next / pageSize - s.capacity / pageSize)) h (b.clear c s h size) := by
  rw [clear]
  by_cases hnew : size > 0 ∧ adjustCapacity c.mode size ≠ s.capacity
  · rw [if_neg hnew.1.ne'] at hnext
    obtain ⟨h', hrun, hroom, hfreed⟩ := howned.release_tags
    have hresize := hfreed.resize_fits (s := { s with tags := s.tags.clear, capacity := 0, count := 0 })
      (hnext.trans (next_unallocated _ _ _))
    rw [if_pos hnew, hrun]
    rwa [Heap.Fits, hroom] at hresize
  · rw [if_neg hnew]
    exact Heap.fits_ok _ _

theorem Owned.insert_fits (howned : Owned c s.capacity b h rest) (hs : s.Inv c)
    (hnext : next = if s.count + 1 = s.countGrowthLimit then
      max s.capacity (adjustCapacity c.mode (s.capacity + 1)) else s.capacity) :
    Heap.Fits (4 + (next / pageSize - s.capacity / pageSize)) h (b.insert c s h) := by
  have hgrow {b : Blocks} {h : Heap} (howned : Owned c s.capacity b h rest) :
      Heap.Fits (2 + (next / pageSize - s.capacity / pageSize)) h
        (if s.count + 1 = s.countGrowthLimit then
          b.resize c { s with count := s.count + 1 } h (s.capacity + 1) else .ok (b, h)) := by
    by_cases hlimit : s.count + 1 = s.countGrowthLimit
    · rw [if_pos hlimit] at hnext
      rw [if_pos hlimit]
      exact howned.resize_fits (hnext.trans (next_capacity hs _))
    · rw [if_neg hlimit]
      exact Heap.fits_ok _ _
  rw [insert]
  by_cases hfull : c.type = .index ∧ s.count = b.entries.size
  · rw [if_pos hfull]
    have hpages : (if (s.count + 1) % pageSize ≠ 0 then
        s.count + 1 + (pageSize - (s.count + 1) % pageSize) else s.count + 1) / pageSize -
          b.entries.size / pageSize ≤ 1 := by
      rw [← hfull.2, pageSize]
      split_ifs <;> omega
    have hdense : Heap.Fits 2 h (b.entries.adjustSize (s.count + 1) h) :=
      (howned.entries.adjustSize_fits rfl howned.entries_live).mono (by omega)
    have hboth := hdense.lift.bind (howned.growDense_leaves hfull.1 hfull.2) fun r hr => hgrow hr.1
    exact hboth.mono (by omega)
  · rw [if_neg hfull]
    exact (hgrow howned).mono (by omega)

variable [DecidableEq K] {fuel : ℕ} {op : Op K V c.type} {ret : Result V}

/-- The room that a call needs: a table and a page of a dense array, a table of
pages, the tags, and the pages that are new. -/
def required (s t : Core K V) : ℕ := 4 + (t.capacity / pageSize - s.capacity / pageSize)

theorem Owned.add_fits (howned : Owned c s.capacity b h rest) (hs : s.Inv c)
    {bUnique bUpdate : Bool} {key : K} {value : V} {out : Bool × ℕ}
    (hadd : s.add c fuel bUnique bUpdate key value = .ok (out, t)) :
    Heap.Fits (required s t) h (b.add c s h fuel bUnique key) := by
  obtain ⟨probed, hprobe, hret⟩ := Core.exists_probed hadd
  have hadded : Core.Added c s bUnique bUpdate key value (out, t) := hs.add_ensures.value hadd
  rw [add, hprobe]
  cases probed with
  | found realIndex => exact Heap.fits_ok _ _
  | free entryIndex =>
    cases hadded with
    | inserted hslot ht => exact howned.insert_fits hs ht.capacity
    | found hchecked hslot hlive hkey => simp at hret

theorem Owned.step_fits (howned : Owned c s.capacity b h rest) (hs : s.Inv c)
    (hcore : Core.step c fuel s op = .ok (ret, t)) :
    Heap.Fits (required s t) h (b.step c s h fuel op) := by
  have hadd {bUnique bUpdate : Bool} {key : K} {value : V}
      {f : (Bool × ℕ) × Core K V → Exec (Result V × Core K V)}
      (hrun : (s.add c fuel bUnique bUpdate key value >>= f) = .ok (ret, t))
      (hf : ∀ r, f r = .ok (ret, t) → r.2 = t) :
      Heap.Fits (required s t) h (b.add c s h fuel bUnique key) := by
    obtain ⟨⟨out, u⟩, hu, hout⟩ := Exec.bind_eq_ok.mp hrun
    obtain rfl := hf _ hout
    exact howned.add_fits hs hu
  cases op with
  | add bUnique key value => exact hadd hcore fun r hr => (Prod.mk.inj (Except.ok.inj hr)).2
  | addOrUpdate key value offered => exact hadd hcore fun r hr => (Prod.mk.inj (Except.ok.inj hr)).2
  | tryAdd key value offered => exact hadd hcore fun r hr => (Prod.mk.inj (Except.ok.inj hr)).2
  | resize size =>
    obtain ⟨u, hu, hret⟩ := Exec.bind_eq_ok.mp hcore
    obtain rfl : u = t := (Prod.mk.inj (Except.ok.inj hret)).2
    have ht : Core.Resized c s size u := (hs.resize_ensures size).value hu
    exact (howned.resize_fits (ht.capacity.trans (next_capacity hs size))).mono
      (Nat.add_le_add_right (by decide) _)
  | clear size =>
    obtain ⟨u, hu, hret⟩ := Exec.bind_eq_ok.mp hcore
    obtain rfl : u = t := (Prod.mk.inj (Except.ok.inj hret)).2
    exact (howned.clear_fits (hs.clear_value hu).1).mono (Nat.add_le_add_right (by decide) _)
  | rehash offered =>
    refine howned.rehash_fits.mono ?_
    rw [required]
    omega
  | remove key offered => exact Heap.fits_ok _ _
  | contains key => exact Heap.fits_ok _ _
  | tryGetValue key offered => exact Heap.fits_ok _ _
  | tryGetIndex key offered => exact Heap.fits_ok _ _
  | setMaxLoadFactor mlf => exact Heap.fits_ok _ _

omit [DecidableEq K] in
theorem construct_fits (c : Template K) (h : Heap) (memory : Memory K V) :
    Heap.Fits 3 h (Blocks.construct c h memory) := by
  have hfits := (unallocated_owned c h).resize_fits (s := Core.unallocated memory)
    (next_unallocated c.mode minSize 0)
  rw [adjustCapacity_of_le le_rfl] at hfits
  exact hfits.mono (by decide)

variable {trace : List (Op K V c.type × Result V × ℕ)}

theorem spends_fit (hrun : Spends (Core.Call c) required s trace n t) (hs : s.Inv c)
    (howned : Owned c s.capacity b h rest) (hroom : n ≤ h.room) :
    ∃ y, Run (HeapCall c) (s, b, h) trace (t, y) := by
  induction hrun generalizing b h rest with
  | nil s => exact ⟨(b, h), .nil _⟩
  | cons hcall _ ih =>
    obtain ⟨fuel, hcore, hcount⟩ := hcall
    obtain ⟨r, hblocks, hused⟩ := howned.step_fits hs hcore (by omega)
    have hheap : HeapCall c (_, b, h) _ _ (_, r) := ⟨fuel, hcore, hcount, hblocks⟩
    obtain ⟨lost, -, howned'⟩ := hheap.kept hs howned
    obtain ⟨y, hy⟩ := ih (hheap.inv hs) howned' (show _ ≤ r.2.room by omega)
    exact ⟨y, .cons hheap hy⟩

/-- Every run of a container, taken by itself, is one on each heap that has room
for the three blocks of the constructor and for what each call requires. -/
theorem runs_fit_on_heap (hstart : Core.Constructed c s)
    (hrun : Spends (Core.Call c) required s trace n t) (hroom : 3 + n ≤ h.room) :
    ∃ x y, HeapConstructed c h (s, x) ∧ Run (HeapCall c) (s, x) trace (t, y) := by
  obtain ⟨fuel, memory, hcore⟩ := id hstart
  obtain ⟨x, hblocks, hused⟩ := construct_fits c h memory (by omega)
  have hnew : HeapConstructed c h (s, x) := ⟨fuel, memory, hcore, hblocks⟩
  obtain ⟨hinv, howned⟩ := hnew.owned
  obtain ⟨y, hy⟩ := spends_fit hrun hinv howned (show n ≤ x.2.room by omega)
  exact ⟨x, y, hnew, hy⟩

/-- 3000 keys are added to a `Map`. -/
theorem runs_fit_on_heap_added : ∃ (s t : Core ℕ ℕ) (x y : Blocks × Heap) (n : ℕ)
    (trace : List (Op ℕ ℕ .map × Result ℕ × ℕ)),
    HeapConstructed (Core.constantHash .map .fast false) ⟨∅, 0, 3 + n, by simp⟩ (s, x) ∧
    Run (HeapCall (Core.constantHash .map .fast false)) (s, x) trace (t, y) ∧
    trace.map Prod.fst = (List.range 3000).map fun k => .add true k 0 := by
  obtain ⟨s, hstart⟩ := Core.exists_constructed (Core.constantHash .map .fast false) Core.zeroedMemory
  obtain ⟨h, hcount, -, hcap, hfactor⟩ := hstart.start
  have hlt : s.capacity < maxSize := by
    rw [hcap]
    decide
  have hlimit : s.countGrowthLimit = 4000 := by
    rw [h.limit_eq, hcap, hfactor]
    decide +kernel
  obtain ⟨trace, t, hrun, hops, -⟩ := h.exists_insertions (n := 3000) (.inl rfl) hlt id 0 (by omega)
  obtain ⟨n, hspends⟩ := hrun.exists_spends
  obtain ⟨x, y, hnew, hheap⟩ := runs_fit_on_heap (h := ⟨∅, 0, 3 + n, by simp⟩) hstart hspends le_rfl
  exact ⟨s, t, x, y, n, trace, hnew, hheap, hops⟩

end Blocks

end SimdHash
