import SimdHash.LockstepCalls

/-! `Clear()` resets the tags and `Count` only. What it leaves in the entries
and in the index table has no influence on anything a later call returns. -/

namespace SimdHash

open Exec OpenAddressing TagVector Transition

namespace Core

variable {K V : Type} {c : Template K} {mode : Mode} {D : Prop} {s s' t u : Core K V}
  {fuel width : ℕ}

section Walks

/-- What a range-based `for` shows: the keys and, in a `Map`, the values. -/
def iterated (c : Template K) (width fuel : ℕ) (s : Core K V) : Exec (List (K × Option V)) := do
  let entries ← s.visited c width fuel
  .ok (entries.map (Entry.shown c))

theorem Inv.count_le (h : s.Inv c) : s.count ≤ s.capacity := by
  rw [h.count_eq]
  exact h.stored.held_le

theorem Settled.iterated_eq (h : Settled c mode D s s') (hw : IsWidth width)
    (hfuel : s.capacity < fuel) : ∃ seq, s.iterated c width fuel = .ok seq ∧
      s'.iterated (c.withMode mode) width fuel = .ok seq := by
  have hfuel' : s'.capacity < fuel := by rwa [h.capacity]
  by_cases ht : c.type = .index
  · have hleft := h.left.visited_index ht width (h.left.count_le.trans_lt hfuel)
    have hright := h.right.visited_index ht width (h.right.count_le.trans_lt hfuel')
    refine ⟨_, by rw [iterated, hleft]; rfl, ?_⟩
    rw [iterated, hright, Exec.ok_bind, h.count, List.map_map, List.map_map]
    congr 1
    refine List.map_congr_left fun j hj => (h.entries j ?_).1
    exact (inUse_index ht).mpr (List.mem_range.mp hj)
  · have hsize : s.tags.size < fuel := by rwa [h.left.size_eq]
    have hsize' : s'.tags.size < fuel := by rwa [h.right.size_eq]
    have hleft := h.left.visited_eq_map ht hw hsize
    have hright := h.right.visited_eq_map ht hw hsize'
    have hocc : s'.occupiedBelow s'.tags.size = s.occupiedBelow s.tags.size := by
      rw [occupiedBelow, occupiedBelow, h.tags.size]
      refine List.filter_congr fun i hi => decide_eq_decide.mpr ?_
      have hlt := List.mem_range.mp hi
      rw [Occupied, Occupied, h.tags.size, h.tags.cell i (by omega)]
    refine ⟨_, by rw [iterated, hleft]; rfl, ?_⟩
    rw [iterated, hright, Exec.ok_bind, hocc, List.map_map, List.map_map]
    congr 1
    refine List.map_congr_left fun j hj => (h.entries j ?_).1
    exact (inUse_slot ht).mpr (of_decide_eq_true (List.mem_filter.mp hj).2)

end Walks

section New

/-- The calls that only choose the size of a container. -/
def Sizes {type : ContainerType} : Op K V type → Prop
  | .resize _ => True
  | .setMaxLoadFactor _ => True
  | _ => False

variable [DecidableEq K]

/-- A container that has been constructed and sized, and never used. -/
def Unused (c : Template K) (u : Core K V) : Prop :=
  ∃ start trace, Constructed c start ∧ Run (guard (fun _ op => Sizes op) (Call c)) start trace u

theorem Unused.start (h : Unused c u) : u.Inv c ∧ u.count = 0 ∧ u.tags.Clean := by
  obtain ⟨start, trace, hstart, hrun⟩ := h
  obtain ⟨hinv, hcount, hclean, -⟩ := hstart.start
  refine hrun.invariant (I := fun u => u.Inv c ∧ u.count = 0 ∧ u.tags.Clean) ?_
    ⟨hinv, hcount, hclean⟩
  intro s op out t hs hcall
  obtain ⟨hinv, hcount, hclean⟩ := hs
  obtain ⟨hsizes, hcall⟩ := hcall
  obtain ⟨hout, -⟩ := hcall.outcome hinv
  obtain ⟨ret, count⟩ := out
  cases hout with
  | resize hr => exact ⟨hr.toInv, hr.count.trans hcount, hr.clean hclean⟩
  | setMaxLoadFactor => exact ⟨hinv.setMaxLoadFactor _, hcount, hclean⟩
  | _ => exact False.elim hsizes

omit [DecidableEq K] in
theorem exists_max_adjustCapacity {capacity : ℕ}
    (h : ∃ size, capacity = adjustCapacity c.mode size) (asked : ℕ) :
    ∃ size, max capacity (adjustCapacity c.mode asked) = adjustCapacity c.mode size := by
  obtain ⟨size, rfl⟩ := h
  rcases max_choice (adjustCapacity c.mode size) (adjustCapacity c.mode asked) with hmax | hmax
  · exact ⟨size, hmax⟩
  · exact ⟨asked, hmax⟩

theorem Reachable.capacity_eq (hs : Reachable c s) : ∃ size, s.capacity = adjustCapacity c.mode size := by
  obtain ⟨start, trace, hstart, hrun⟩ := hs
  obtain ⟨hinv, -, -, hcapacity, -⟩ := hstart.start
  have hbase : start.Inv c ∧ ∃ size, start.capacity = adjustCapacity c.mode size :=
    ⟨hinv, minSize, hcapacity.trans (adjustCapacity_of_le le_rfl).symm⟩
  refine (hrun.invariant (I := fun s => s.Inv c ∧ ∃ size, s.capacity = adjustCapacity c.mode size)
    ?_ hbase).2
  intro s op out t hs hcall
  obtain ⟨hinv, hsize⟩ := hs
  refine ⟨hcall.inv hinv, ?_⟩
  have hadded {bUnique bUpdate b : Bool} {key : K} {value : V} {index : ℕ}
      (hr : Added c s bUnique bUpdate key value ((b, index), t)) :
      ∃ size, t.capacity = adjustCapacity c.mode size := by
    cases hr with
    | inserted hslot ht =>
      rw [ht.capacity]
      split_ifs
      · exact exists_max_adjustCapacity hsize _
      · exact hsize
    | found hchecked hslot hlive hkey =>
      split_ifs
      · exact hsize
      · exact hsize
  obtain ⟨hout, -⟩ := hcall.outcome hinv
  obtain ⟨ret, count⟩ := out
  cases hout with
  | add hr => exact hadded hr
  | addOrUpdate hr => exact hadded hr
  | tryAdd hr => exact hadded hr
  | remove hr => cases hr <;> exact hsize
  | resize hr =>
    rw [hr.capacity]
    exact exists_max_adjustCapacity hsize _
  | rehash hr =>
    rw [hr.capacity]
    exact exists_max_adjustCapacity hsize _
  | @clear asked _ _ _ _ _ _ =>
    obtain ⟨fuel, hstep, -⟩ := hcall
    obtain ⟨t', hclear, ht'⟩ := Exec.bind_eq_ok.mp hstep
    rw [hinv.clear_eq] at hclear
    obtain ⟨-, -, hcleared⟩ := Exec.bind_eq_ok.mp hclear
    simp only [Except.ok.injEq, Prod.mk.injEq] at hcleared ht'
    rw [← ht'.2, ← hcleared, cleared_capacity]
    split_ifs
    · exact hsize
    · exact ⟨asked, rfl⟩
  | _ => exact hsize

/-- Every capacity and load factor can be had from a new container. -/
theorem Reachable.exists_unused (hs : Reachable c s) (memory : Memory K V) :
    ∃ u : Core K V, Unused c u ∧ u.capacity = s.capacity ∧ u.maxLoadFactor = s.maxLoadFactor := by
  obtain ⟨size, hsize⟩ := hs.capacity_eq
  obtain ⟨start, hstart⟩ := exists_constructed c memory
  obtain ⟨hinv, hcount, -, hcapacity, -⟩ := hstart.start
  have hresize : Ensures (start.resize c 0 size) _ _ := hinv.resize_ensures size
  obtain ⟨u, hu, hresized⟩ := hresize.returns fun e he => he.1 hcount
  have hmin := (adjustCapacity_isCapacity c.mode size).min_le
  have haccepted : (FloatValue.finite s.maxLoadFactor).accepted? = some s.maxLoadFactor :=
    if_pos ⟨hs.inv.factor_min, hs.inv.factor_max⟩
  have hstep : Core.step c 0 start (.resize size) = .ok (.void, u) := by
    rw [Core.step, hu]
    rfl
  have hfirst : guard (fun _ op => Sizes op) (Call c) start (.resize size) (.void, u.count) u :=
    ⟨trivial, 0, hstep, rfl⟩
  have hsecond : guard (fun _ op => Sizes op) (Call c) u
      (.setMaxLoadFactor (.finite s.maxLoadFactor)) (.void, u.count)
      (u.setMaxLoadFactor (.finite s.maxLoadFactor)) :=
    ⟨trivial, 0, rfl, rfl⟩
  refine ⟨u.setMaxLoadFactor (.finite s.maxLoadFactor),
    ⟨start, _, hstart, .cons hfirst (.cons hsecond (.nil _))⟩, ?_, ?_⟩
  · show u.capacity = s.capacity
    rw [hresized.capacity, hcapacity, hsize]
    exact max_eq_right hmin
  · simp only [Core.setMaxLoadFactor, haccepted, Option.getD_some]

omit [DecidableEq K] in
theorem Inv.tags_empty (h : u.Inv c) (hcount : u.count = 0) (hclean : u.tags.Clean) {i : ℕ}
    (hi : i < u.tags.size) : u.tags.cell i = empty := by
  rcases h.valid.tag i hi with hlive | hempty | hbad
  · exact absurd (slots_eq_live.mpr ⟨hi, hlive, rfl⟩) (h.not_live_of_count hcount i _)
  · exact hempty
  · exact absurd hbad (hclean i hi)

omit [DecidableEq K] in
theorem Inv.settled_empty (h : t.Inv c) (h' : u.Inv c) (hcount : t.count = 0)
    (hcount' : u.count = 0) (hclean : t.tags.Clean) (hclean' : u.tags.Clean)
    (hcapacity : u.capacity = t.capacity) (hfactor : u.maxLoadFactor = t.maxLoadFactor) :
    Settled c c.mode False t u := by
  have hsize : u.tags.size = t.tags.size := by rw [h.size_eq, h'.size_eq, hcapacity]
  have hnone (i : ℕ) : ¬ t.Occupied i := fun hocc =>
    h.not_live_of_count hcount i _ (slots_eq_live.mpr ⟨hocc.1, hocc.2, rfl⟩)
  refine ⟨?_, h, h'⟩
  refine
    { tags := ⟨hsize, fun i hi => ?_, False.elim⟩
      adjust := Geometry.adjust_congr (.inl rfl) h.geometry h'.geometry hcapacity
      capacity := hcapacity
      factor := hfactor
      limit := by rw [h.limit_eq, h'.limit_eq, hcapacity, hfactor]
      count := hcount'.trans hcount.symm
      entries_size := fun ht => by rw [h.entries_size ht, h'.entries_size ht, hcapacity]
      realIndex_size := fun ht => by rw [h.realIndex_size ht, h'.realIndex_size ht, hcapacity]
      refs := fun _ i hocc => absurd hocc (hnone i)
      entries := fun j hj => ?_
      whole := False.elim }
  · by_cases hlt : i < t.tags.size
    · rw [h.tags_empty hcount hclean hlt, h'.tags_empty hcount' hclean' (hsize ▸ hlt)]
    · have hge := not_lt.mp hlt
      rw [h.valid.sentinel i hge hi, h'.valid.sentinel i (hsize ▸ hge) (hsize ▸ hi)]
  · rw [InUse] at hj
    split_ifs at hj
    · rw [hcount] at hj
      exact absurd hj (Nat.not_lt_zero j)
    · exact absurd hj (hnone j)

/-- A container after `Clear()` and a new one of its capacity and load factor
cannot be told apart by any calls. -/
theorem cleared_as_new (hs : Reachable c s) (hclear : s.clear c fuel 0 = .ok t)
    (hu : Unused c u) (hcapacity : u.capacity = t.capacity)
    (hfactor : u.maxLoadFactor = t.maxLoadFactor) (fuel' : ℕ) (ops : List (Op K V c.type)) :
    Agree (fun r r' => r'.1 = r.1 ∧ r'.2.count = r.2.count ∧ r'.2.capacity = r.2.capacity ∧
        ∀ width steps, IsWidth width → r.2.capacity < steps →
          ∃ seq, r.2.iterated c width steps = .ok seq ∧ r'.2.iterated c width steps = .ok seq)
      (runOps c fuel' t ops) (runOps c fuel' u ops) := by
  obtain ⟨ht, hcount, hclean, -⟩ := (hs.inv.clear_ensures 0).value hclear
  obtain ⟨hinv, hcount', hclean'⟩ := hu.start
  have hsettled := ht.settled_empty hinv hcount hcount' hclean hclean' hcapacity hfactor
  refine (hsettled.runOps (.inl rfl) ops).mono fun r r' hr => ?_
  obtain ⟨htrace, hend⟩ := hr
  exact ⟨htrace, hend.count, hend.capacity, fun width steps hw hsteps =>
    hend.iterated_eq hw hsteps⟩

theorem cleared_as_new_constantHash : ∃ s t u : Core ℕ ℕ,
    Reachable (constantHash .map .fast false) s ∧ s.count = 1 ∧ s.tags.cell 0 = tombstone ∧
    s.clear (constantHash .map .fast false) 0 0 = .ok t ∧
    Unused (constantHash .map .fast false) u ∧
    ∀ fuel ops, Agree (fun r r' => r'.1 = r.1) (runOps (constantHash .map .fast false) fuel t ops)
      (runOps (constantHash .map .fast false) fuel u ops) := by
  have hruns : ((after (constantHash .map .fast false) 100 zeroedMemory
      [.add false 1 10, .add false 2 20, .remove 1]) >>=
      fun s => .ok (s.count, s.tags.cell 0)) = .ok (1, tombstone) := by
    decide +kernel
  obtain ⟨s, hafter, hs⟩ := Exec.bind_eq_ok.mp hruns
  have hreach : Reachable (constantHash .map .fast false) s := reachable_of_after hafter
  simp only [Except.ok.injEq, Prod.mk.injEq] at hs
  have hcleared : Ensures (s.clear (constantHash .map .fast false) 0 0) _ _ :=
    hreach.inv.clear_ensures 0
  obtain ⟨t, hclear, -, -, -, hfactor, hcapacity⟩ := hcleared.returns fun e he => he.2 rfl
  obtain ⟨u, hu, hcapacity', hfactor'⟩ := hreach.exists_unused zeroedMemory
  refine ⟨s, t, u, hreach, hs.1, hs.2, hclear, hu, fun fuel ops => ?_⟩
  exact (cleared_as_new hreach hclear hu (hcapacity'.trans (hcapacity rfl).symm)
    (hfactor'.trans hfactor.symm) fuel ops).mono fun r r' hr => hr.1

end New

end Core

end SimdHash
