import SimdHash.Agreement
import SimdHash.Growth

/-! More fuel only turns timeouts into results, so a call has at most one
outcome. -/

namespace SimdHash

open Exec

namespace Core

variable {K V β : Type} {c : Template K} {s t : Core K V} {fuel fuel' : ℕ}

theorem probe_approx (hle : fuel ≤ fuel') {visit visit' : ℕ → Exec (Option β)}
    (hvisit : ∀ i, Approx (visit i) (visit' i)) (hash : UInt64) :
    Approx (s.probe c fuel visit hash) (s.probe c fuel' visit' hash) := by
  refine loop_approx (fun st => ?_) hle _
  obtain ⟨tupleIndex, jump⟩ := st
  exact (hvisit tupleIndex).bind fun _ => .refl _

theorem findEmpty_approx (hle : fuel ≤ fuel') (hash : UInt64) :
    Approx (s.findEmpty c fuel hash) (s.findEmpty c fuel' hash) :=
  probe_approx hle (fun _ => .refl _) hash

section Keys

variable [DecidableEq K]

theorem findMatch_approx (hle : fuel ≤ fuel') (key : K) (tupleIndex mask : ℕ) :
    Approx (s.findMatch c fuel key tupleIndex mask) (s.findMatch c fuel' key tupleIndex mask) :=
  loop_approx (fun _ => .refl _) hle mask

theorem probeChecked_approx (hle : fuel ≤ fuel') (key : K) :
    Approx (s.probeChecked c fuel key) (s.probeChecked c fuel' key) := by
  refine probe_approx hle (fun i => ?_) _
  refine (Approx.refl _).bind fun source => ?_
  exact (findMatch_approx hle key i _).bind fun _ => .refl _

end Keys

theorem displace_approx (hle : fuel ≤ fuel') (prevTags : TagArray) (tag : UInt8)
    (entry : Entry K V) (i : ℕ) :
    Approx (displace c fuel prevTags s tag entry i) (displace c fuel' prevTags s tag entry i) := by
  refine loop_approx (fun st => ?_) hle _
  refine (Approx.refl _).bind fun saveTag => (Approx.refl _).bind fun prevTags => ?_
  refine (Approx.refl _).bind fun saveEntry => (Approx.refl _).bind fun s => ?_
  exact (findEmpty_approx hle _).bind fun _ => .refl _

theorem rehashSlot_approx (hle : fuel ≤ fuel') (i : ℕ) (state : TagArray × Core K V) :
    Approx (rehashSlot c fuel i state) (rehashSlot c fuel' i state) := by
  refine (Approx.refl _).bind fun prevTag => .ite (.refl _) ?_
  refine (Approx.refl _).bind fun entry => (findEmpty_approx hle _).bind fun emptyIndex => ?_
  refine (Approx.refl _).bind fun prevTags => .ite (.refl _) ?_
  exact (Approx.refl _).bind fun b => .ite (.refl _) (displace_approx hle _ _ _ _)

theorem reindexKey_approx (hle : fuel ≤ fuel') (i : ℕ) (s : Core K V) :
    Approx (reindexKey c fuel i s) (reindexKey c fuel' i s) :=
  (Approx.refl _).bind fun _ => (findEmpty_approx hle _).bind fun _ => .refl _

theorem rehashInternal_approx (hle : fuel ≤ fuel') (size : ℕ) :
    Approx (rehashInternal c fuel s size) (rehashInternal c fuel' s size) := by
  refine .ite ?_ ?_
  · refine (Approx.refl _).bind fun _ => (Approx.refl _).bind fun _ => ?_
    exact forRange_approx (reindexKey_approx hle) _ _
  · refine (Approx.refl _).bind fun _ => (Approx.refl _).bind fun _ => ?_
    exact (forRange_approx (rehashSlot_approx hle) _ _).bind fun _ => .refl _

theorem resize_approx (hle : fuel ≤ fuel') (size : ℕ) :
    Approx (s.resize c fuel size) (s.resize c fuel' size) := by
  by_cases hgt : s.capacity > adjustCapacity c.mode size
  · rw [resize_of_gt hgt, resize_of_gt hgt]
    exact .refl _
  · rw [resize_eq hgt, resize_eq hgt]
    refine (Approx.refl _).bind fun _ => .ite (.refl _) ?_
    exact (Approx.refl _).bind fun _ => .ite (.refl _) (rehashInternal_approx hle _)

theorem insert_approx (hle : fuel ≤ fuel') (i : ℕ) (key : K) (value : V) :
    Approx (s.insert c fuel i key value) (s.insert c fuel' i key value) :=
  (Approx.refl _).bind fun _ => .ite (resize_approx hle _) (.refl _)

variable [DecidableEq K]

theorem add_approx (hle : fuel ≤ fuel') (bUnique bUpdate : Bool) (key : K) (value : V) :
    Approx (s.add c fuel bUnique bUpdate key value) (s.add c fuel' bUnique bUpdate key value) := by
  cases bUnique with
  | true =>
    refine Approx.bind (probe_approx hle (fun _ => .refl _) _) ?_
    intro r
    cases r with
    | found realIndex => exact .refl _
    | free entryIndex => exact (insert_approx hle _ _ _).bind fun _ => .refl _
  | false =>
    refine Approx.bind (probeChecked_approx hle key) ?_
    intro r
    cases r with
    | found realIndex => exact .refl _
    | free entryIndex => exact (insert_approx hle _ _ _).bind fun _ => .refl _

end Core

end SimdHash
