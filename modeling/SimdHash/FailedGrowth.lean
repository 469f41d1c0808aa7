import SimdHash.Calls
import SimdHash.Pages

/-! `Resize` where `operator new` can throw. It has set the capacity by then,
so what a failed growth leaves is a capacity that the tags do not have. -/

namespace SimdHash

open TagVector Transition

theorem EntryArray.adjustSizeOrThrow_of_page {α : Type} {bDebug : Bool} {allocations : ℕ}
    {array : EntryArray α} {size : ℕ} (h : pageSize ∣ size) :
    adjustSizeOrThrow bDebug allocations array size =
      (Exec.assert bDebug (size > array.size) >>= fun _ =>
        .ok (if array.allocated size ≤ allocations then .ok { array with size }
          else .error array)) := by
  rw [adjustSizeOrThrow_eq, adjustSize_of_page h, bind_assoc]
  rfl

namespace Core

variable {K V : Type} {c : Template K} {s t u : Core K V} {fuel allocations size : ℕ}

section Throwing

/-- The array that follows the capacity is adjusted. The inner `.error` is what
the exception leaves. -/
def adjustStorage (c : Template K) (allocations : ℕ) (s : Core K V) :
    Exec (Except (Core K V) (Core K V)) :=
  if c.type = .index then do
    match ← EntryArray.adjustSizeOrThrow c.bDebug allocations s.realIndex s.capacity with
    | .error realIndex => .ok (.error { s with realIndex })
    | .ok realIndex => .ok (.ok { s with realIndex })
  else do
    match ← EntryArray.adjustSizeOrThrow c.bDebug allocations s.entries s.capacity with
    | .error entries => .ok (.error { s with entries })
    | .ok entries => .ok (.ok { s with entries })

/-- `Resize`, where `allocations` calls of `operator new` return and the next
one throws. -/
def resizeOrThrow (c : Template K) (fuel allocations : ℕ) (s : Core K V) (size : ℕ) :
    Exec (Except (Core K V) (Core K V)) := do
  if s.capacity > adjustCapacity c.mode size then .ok (.ok s)
  else
    if c.mode = .resizeOnlyEmpty then Exec.assert c.bDebug (s.count = 0)
    let s := s.initCapacity c size
    if s.capacity = s.tags.size then .ok (.ok s)
    else
      match ← s.adjustStorage c allocations with
      | .error s => .ok (.error s)
      | .ok s =>
        if s.count = 0 then
          let tags ← s.tags.adjustSize c.bDebug s.capacity
          let tags ← tags.init c.bDebug
          .ok (.ok { s with tags })
        else
          let s ← s.rehashInternal c fuel s.capacity
          .ok (.ok s)

def allocated (c : Template K) (s : Core K V) (capacity : ℕ) : ℕ :=
  1 + (capacity / pageSize - s.storage c / pageSize)

theorem adjustStorage_eq (hpage : pageSize ∣ s.capacity) (allocations : ℕ) :
    s.adjustStorage c allocations =
    (Exec.assert c.bDebug (s.capacity > s.storage c) >>= fun _ =>
      .ok (if s.allocated c s.capacity ≤ allocations then .ok (grown c s) else .error s)) := by
  by_cases ht : c.type = .index
  · have hstorage : s.storage c = s.realIndex.size := if_pos ht
    rw [adjustStorage, if_pos ht, EntryArray.adjustSizeOrThrow_of_page hpage, allocated, hstorage,
      ← EntryArray.allocated, bind_assoc]
    by_cases henough : s.realIndex.allocated s.capacity ≤ allocations
    · simp [henough, grown, ht]
    · simp [henough]
  · have hstorage : s.storage c = s.entries.size := if_neg ht
    rw [adjustStorage, if_neg ht, EntryArray.adjustSizeOrThrow_of_page hpage, allocated, hstorage,
      ← EntryArray.allocated, bind_assoc]
    by_cases henough : s.entries.allocated s.capacity ≤ allocations
    · simp [henough, grown, ht]
    · simp [henough]

theorem initCapacity_storage : (s.initCapacity c size).storage c = s.storage c := by
  rw [storage, storage, initCapacity_entries, initCapacity_realIndex]

/-- `Resize` throws if it needs more allocations than return, and else does what it does. -/
theorem resizeOrThrow_eq (h : ¬ s.capacity > adjustCapacity c.mode size) :
    s.resizeOrThrow c fuel allocations size =
      if adjustCapacity c.mode size ≠ s.tags.size ∧
          allocations < s.allocated c (adjustCapacity c.mode size) then
        Exec.assert (c.bDebug && c.mode = .resizeOnlyEmpty) (s.count = 0) >>= fun _ =>
          Exec.assert c.bDebug (adjustCapacity c.mode size > s.storage c) >>= fun _ =>
            .ok (.error (s.initCapacity c size))
      else s.resize c fuel size >>= fun t => .ok (.ok t) := by
  have hcap := adjustCapacity_isCapacity c.mode size
  have hchosen : (s.initCapacity c size).capacity = adjustCapacity c.mode size :=
    initCapacity_capacity
  have hstorage : (s.initCapacity c size).storage c = s.storage c := initCapacity_storage
  have hallocated : (s.initCapacity c size).allocated c (adjustCapacity c.mode size) =
      s.allocated c (adjustCapacity c.mode size) := by
    rw [allocated, allocated, hstorage]
  have hpage : pageSize ∣ (s.initCapacity c size).capacity := hchosen ▸ hcap.page
  have hadjust := adjustStorage_eq (c := c) hpage allocations
  rw [hchosen, hstorage, hallocated] at hadjust
  rw [resizeOrThrow, if_neg h, resize_eq h]
  generalize adjustCapacity c.mode size = capacity at hchosen hcap hadjust
  have htags : TagArray.init c.bDebug { s.tags with size := capacity } =
      .ok (TagArray.fill { s.tags with size := capacity }) := init_eq hcap
  by_cases hsame : capacity = s.tags.size
  · by_cases hm : c.mode = .resizeOnlyEmpty <;>
      simp [hm, hchosen, hsame, -initCapacity_capacity]
  · by_cases hfew : allocations < s.allocated c capacity
    · have henough : ¬ s.allocated c capacity ≤ allocations := not_le.mpr hfew
      by_cases hm : c.mode = .resizeOnlyEmpty <;>
        simp [hm, hchosen, hsame, hfew, henough, hadjust, -initCapacity_capacity]
    · have henough : s.allocated c capacity ≤ allocations := not_lt.mp hfew
      by_cases hm : c.mode = .resizeOnlyEmpty <;> by_cases hc : s.count = 0 <;>
        simp [hm, hc, hchosen, hsame, hfew, henough, hadjust, htags, TagArray.adjustSize, grown,
          emptied, -initCapacity_capacity]

theorem Inv.resizeOrThrow_thrown_iff (h : s.Inv c) :
    s.resizeOrThrow c fuel allocations size = .ok (.error t) ↔
      s.capacity < adjustCapacity c.mode size ∧
      allocations < s.allocated c (adjustCapacity c.mode size) ∧
      (c.bDebug = true → c.mode = .resizeOnlyEmpty → s.count = 0) ∧
      t = s.initCapacity c size := by
  have hsize := h.size_eq
  have hstorage := h.storage_eq
  have hmode : Exec.assert (c.bDebug && c.mode = .resizeOnlyEmpty) (s.count = 0) = .ok () ↔
      (c.bDebug = true → c.mode = .resizeOnlyEmpty → s.count = 0) := by
    rw [Exec.assert_eq_ok, Bool.and_eq_true, decide_eq_true_eq, and_imp]
  by_cases hgt : s.capacity > adjustCapacity c.mode size
  · rw [resizeOrThrow, if_pos hgt]
    exact iff_of_false (by simp) fun hthrow => by omega
  rw [resizeOrThrow_eq hgt]
  by_cases hfew : adjustCapacity c.mode size ≠ s.tags.size ∧
      allocations < s.allocated c (adjustCapacity c.mode size)
  · have hlt : s.capacity < adjustCapacity c.mode size := by omega
    rw [if_pos hfew, Exec.assert_of c.bDebug (hstorage ▸ hlt), Exec.ok_bind, Exec.bind_eq_ok]
    constructor
    · intro hthrow
      obtain ⟨_, hassert, ht⟩ := hthrow
      rw [Except.ok.injEq, Except.error.injEq] at ht
      exact ⟨hlt, hfew.2, hmode.mp hassert, ht.symm⟩
    · intro hthrow
      obtain ⟨-, -, hassert, rfl⟩ := hthrow
      exact ⟨(), hmode.mpr hassert, rfl⟩
  · rw [if_neg hfew]
    refine iff_of_false ?_ ?_
    · intro hthrow
      obtain ⟨_, _, hreturn⟩ := Exec.bind_eq_ok.mp hthrow
      cases hreturn
    · intro hthrow
      exact hfew ⟨by omega, hthrow.2.1⟩

end Throwing

section Entering

variable [DecidableEq K]

/-- A call on `s` enters `Resize(size)` in state `u`: the call of `Resize`
itself, or one of `Add` when it has stored the key. -/
inductive Entered (c : Template K) (s : Core K V) : Core K V → ℕ → Prop
  | call (size : ℕ) : Entered c s s size
  | growth {fuel : ℕ} {bUnique : Bool} {key : K} {value : V} {entryIndex : ℕ} {u : Core K V}
      (hprobe : (if bUnique then s.probeUnique c fuel key else s.probeChecked c fuel key) =
        .ok (.free entryIndex))
      (hfill : s.fillSlot c entryIndex key value = .ok u)
      (hlimit : u.count = u.countGrowthLimit) : Entered c s u (u.capacity + 1)

theorem Inv.freeSlot (h : s.Inv c) {bUnique : Bool} {key : K} {i : ℕ}
    (hprobe : (if bUnique then s.probeUnique c fuel key else s.probeChecked c fuel key) =
      .ok (.free i)) : s.FreeSlot c bUnique key i := by
  cases bUnique with
  | true =>
    obtain ⟨j, hj, hslot⟩ := (h.toTable.probeUnique_ensures key).value hprobe
    cases hj
    exact hslot
  | false =>
    rcases (h.probeChecked_ensures key).value hprobe with ⟨j, hj, -⟩ | ⟨j, hj, hslot⟩
    · cases hj
    · cases hj
      exact hslot

theorem Entered.inv (hu : Entered c s u size) (h : s.Inv c) : u.Inv c := by
  cases hu with
  | call => exact h
  | growth hprobe hfill hlimit =>
    have hslot := h.freeSlot hprobe
    rw [fillSlot_eq h hslot.lt_size, Except.ok.injEq] at hfill
    subst hfill
    exact h.placed_paged hslot.lt_size hslot.not_live hslot.reached _

end Entering

section Claims

variable [DecidableEq K]

/-- Whatever an exception leaves is what `Resize` found exactly if there is none:
nothing grows, all allocations return, or the assertion of `ResizeOnlyEmpty`
comes first. -/
theorem failed_growth_intact_iff (hs : Reachable c s) (hu : Entered c s u size)
    (fuel allocations : ℕ) :
    (∀ t, u.resizeOrThrow c fuel allocations size = .ok (.error t) → t = u) ↔
      adjustCapacity c.mode size ≤ u.capacity ∨
      u.allocated c (adjustCapacity c.mode size) ≤ allocations ∨
      (c.bDebug = true ∧ c.mode = .resizeOnlyEmpty ∧ u.count ≠ 0) := by
  have h := hu.inv hs.inv
  constructor
  · intro hintact
    by_contra hnot
    rw [not_or, not_or, not_le, not_le] at hnot
    obtain ⟨hlt, hfew, hassert⟩ := hnot
    have hthrow : u.resizeOrThrow c fuel allocations size = .ok (.error (u.initCapacity c size)) := by
      refine h.resizeOrThrow_thrown_iff.mpr ⟨hlt, hfew, ?_, rfl⟩
      intro hdebug hmode
      by_contra hcount
      exact hassert ⟨hdebug, hmode, hcount⟩
    have hsame := congrArg capacity (hintact _ hthrow)
    rw [initCapacity_capacity] at hsame
    omega
  · intro hnone t hthrow
    obtain ⟨hlt, hfew, hassert, -⟩ := h.resizeOrThrow_thrown_iff.mp hthrow
    rcases hnone with hle | henough | ⟨hdebug, hmode, hcount⟩
    · exact absurd hlt (not_lt.mpr hle)
    · exact absurd hfew (not_lt.mpr henough)
    · exact absurd (hassert hdebug hmode) hcount

/-- All hashes are 5000, a slot that only the larger table has. -/
abbrev beyondMinSize : Template ℕ := { constantHash .map .fast false with hasher := fun _ => 5000 }

theorem failed_growth_not_intact : ∃ s : Core ℕ ℕ, Reachable beyondMinSize s ∧ s.count = 2 ∧
    ¬ ∀ t, s.resizeOrThrow beyondMinSize 0 1 8192 = .ok (.error t) → t = s := by
  have hruns : (after beyondMinSize 100 zeroedMemory [.add false 7 1, .add false 8 2] >>= fun s =>
      .ok (s.capacity, s.count)) = .ok (4096, 2) := by
    decide +kernel
  obtain ⟨s, hafter, hruns⟩ := Exec.bind_eq_ok.mp hruns
  simp only [Except.ok.injEq, Prod.mk.injEq] at hruns
  obtain ⟨hcap, hcount⟩ := hruns
  have hs : Reachable beyondMinSize s := reachable_of_after hafter
  have hadjust : adjustCapacity .fast 8192 = 8192 := by decide
  refine ⟨s, hs, hcount, ?_⟩
  rw [failed_growth_intact_iff hs (.call 8192) 0 1, hadjust, allocated, hs.inv.storage_eq, hcap]
  simp [pageSize]

/-- One key is added and found. `Resize(8192)` throws when it makes the second
page, and now the search for the key starts beyond the tags. -/
theorem failed_growth_loses_key :
    ∃ (start s t : Core ℕ ℕ) (trace : List (Op ℕ ℕ .map × Result ℕ × ℕ)),
      Constructed beyondMinSize start ∧ Run (Call beyondMinSize) start trace s ∧
      trace.map Prod.fst = [.add false 7 1] ∧
      s.resizeOrThrow beyondMinSize 100 1 8192 = .ok (.error t) ∧
      s.capacity = 4096 ∧ t.capacity = 8192 ∧ t.tags.size = 4096 ∧
      s.findEntry beyondMinSize 100 7 = .ok (some 904) ∧
      t.findEntry beyondMinSize 100 7 = .error .outOfBounds := by
  have hrun : ((after beyondMinSize 100 zeroedMemory [.add false 7 1]) >>= fun s =>
      s.resizeOrThrow beyondMinSize 100 1 8192 >>= fun thrown =>
        match thrown with
        | .ok _ => .error .assertion
        | .error t => .ok ((s.capacity, t.capacity, t.tags.size),
            s.findEntry beyondMinSize 100 7, t.findEntry beyondMinSize 100 7)) =
      .ok ((4096, 8192, 4096), .ok (some 904), .error .outOfBounds) := by
    decide +kernel
  obtain ⟨s, hafter, hrun⟩ := Exec.bind_eq_ok.mp hrun
  obtain ⟨thrown, hthrow, hrun⟩ := Exec.bind_eq_ok.mp hrun
  obtain ⟨start, trace, hstart, hcalls, hops⟩ := after_run hafter
  cases thrown with
  | ok t => cases hrun
  | error t =>
    simp only [Except.ok.injEq, Prod.mk.injEq] at hrun
    obtain ⟨⟨hcap, hcap', hsize⟩, hfound, hlost⟩ := hrun
    exact ⟨start, s, t, trace, hstart, hcalls, hops, hthrow, hcap, hcap', hsize, hfound, hlost⟩

end Claims

end Core

end SimdHash
