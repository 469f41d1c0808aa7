import SimdHash.Fuel
import SimdHash.Iteration

/-! No access of a call or of an iteration is out of range. -/

namespace SimdHash

open TagVector

namespace Core

variable {K V : Type} {c : Template K} {s t : Core K V} {fuel : ℕ}

section Faults

theorem ResizeFault.ne_outOfBounds {size count : ℕ} {e : Fault}
    (h : ResizeFault c fuel size count e) : e ≠ .outOfBounds := by
  obtain ⟨-, ⟨rfl, -⟩ | ⟨rfl, -⟩⟩ := h <;> decide

theorem AddFault.ne_outOfBounds {key : K} {e : Fault} (h : AddFault c s fuel key e) :
    e ≠ .outOfBounds := by
  rcases h with ⟨rfl, -⟩ | ⟨-, hgrow⟩
  · decide
  · exact hgrow.ne_outOfBounds

theorem LookupFault.ne_outOfBounds {key : K} {e : Fault} (h : LookupFault c s fuel key e) :
    e ≠ .outOfBounds := by
  obtain ⟨rfl, -⟩ := h
  decide

theorem CallFault.ne_outOfBounds {op : Op K V c.type} {e : Fault} (h : CallFault c s fuel e op) :
    e ≠ .outOfBounds := by
  cases op with
  | add bUnique key value => exact AddFault.ne_outOfBounds h
  | addOrUpdate key value offered => exact AddFault.ne_outOfBounds h
  | tryAdd key value offered => exact AddFault.ne_outOfBounds h
  | remove key offered => exact LookupFault.ne_outOfBounds h
  | contains key => exact LookupFault.ne_outOfBounds h
  | tryGetValue key offered => exact LookupFault.ne_outOfBounds h
  | tryGetIndex key offered => exact LookupFault.ne_outOfBounds h
  | resize size => exact ResizeFault.ne_outOfBounds h
  | rehash offered =>
    obtain ⟨rfl, -⟩ : e = .timeout ∧ _ := h
    decide
  | clear size =>
    obtain ⟨rfl, -⟩ : e = .assertion ∧ _ := h
    decide
  | setMaxLoadFactor mlf => exact False.elim h

end Faults

section Iterating

variable {width fuel' : ℕ}

theorem seek_approx (hle : fuel ≤ fuel') (it : ConstIterator) :
    Exec.Approx (s.seek c width fuel it) (s.seek c width fuel' it) :=
  .ite (.refl _) (Exec.loop_approx (fun _ => .refl _) hle it)

theorem visited_approx (hle : fuel ≤ fuel') :
    Exec.Approx (s.visited c width fuel) (s.visited c width fuel') := by
  refine Exec.Approx.bind (.ite ?_ (.refl _)) fun first => Exec.loop_approx (fun st => ?_) hle _
  · exact (Exec.Approx.refl _).bind fun mask => seek_approx hle _
  · obtain ⟨it, entries⟩ := st
    refine .ite (.refl _) ?_
    exact (Exec.Approx.refl _).bind fun entry => (seek_approx hle it).bind fun _ => .refl _

/-- Whatever the fuel, an iteration does nothing worse than not to end. -/
theorem Inv.visited_ne_outOfBounds (h : s.Inv c) (hw : IsWidth width) :
    s.visited c width fuel ≠ .error .outOfBounds := by
  have hends : ∃ entries, s.visited c width (max fuel (s.tags.size + s.count + 1)) = .ok entries := by
    by_cases ht : c.type = .index
    · exact ⟨_, h.visited_index ht width (by omega)⟩
    · exact ⟨_, h.visited_eq_map ht hw (by omega)⟩
  obtain ⟨entries, hends⟩ := hends
  intro hbad
  have happrox : Exec.Approx (s.visited c width fuel)
      (s.visited c width (max fuel (s.tags.size + s.count + 1))) :=
    visited_approx (le_max_left _ _)
  rcases happrox with hout | hsame
  · rw [hbad] at hout
    cases hout
  · rw [hbad, hends] at hsame
    cases hsame

end Iterating

variable [DecidableEq K]

/-- Every access of a call or an iteration on a reachable container is in range,
the arrays behind the table are as large as its capacity, the sentinels are in
place, and what a live slot of an `Index` points to is a key that was added. -/
theorem accesses_in_range (hs : Reachable c s) :
    (∀ fuel op, step c fuel s op ≠ .error .outOfBounds) ∧
    (∀ width fuel, IsWidth width → s.visited c width fuel ≠ .error .outOfBounds) ∧
    s.tags.size = s.capacity ∧
    (c.type ≠ .index → s.entries.size = s.capacity) ∧
    (c.type = .index → s.realIndex.size = s.capacity) ∧
    (∀ i, s.capacity ≤ i → i < s.capacity + TagVector.size → s.tags.cell i = forbidden) ∧
    (c.type = .index → ∀ i < s.capacity, s.tags.cell i < 0x80 →
      s.realIndex.cell i < s.count ∧ s.realIndex.cell i < s.entries.size) := by
  have h := hs.inv
  refine ⟨?_, fun width fuel hw => h.visited_ne_outOfBounds hw, h.size_eq, h.entries_size,
    h.realIndex_size, ?_, ?_⟩
  · intro fuel op hbad
    exact CallFault.ne_outOfBounds ((h.step_ensures op).fault hbad) rfl
  · intro i hge hlt
    exact h.valid.sentinel i (h.size_eq.symm ▸ hge) (h.size_eq.symm ▸ hlt)
  · intro ht i hi htag
    have hlt := h.ref_lt_count ht (h.size_eq.symm ▸ hi) htag
    rw [ref, if_pos ht] at hlt
    exact ⟨hlt, hlt.trans_le (h.index_count ht)⟩

theorem accesses_in_range_constantHash : ∃ s : Core ℕ ℕ,
    Reachable (constantHash .index .fast false) s ∧ s.count = 17 ∧
    step (constantHash .index .fast false) 65536 s (.tryGetIndex 16) ≠ .error .outOfBounds := by
  have hruns : ((after (constantHash .index .fast false) 100 zeroedMemory
      ((List.range 17).map fun k => .add false k 0)) >>= fun s => .ok s.count) = .ok 17 := by
    decide +kernel
  obtain ⟨s, hafter, hs⟩ := Exec.bind_eq_ok.mp hruns
  have hreach : Reachable (constantHash .index .fast false) s := reachable_of_after hafter
  exact ⟨s, hreach, by simpa using hs, (accesses_in_range hreach).1 65536 (.tryGetIndex 16)⟩

end Core

end SimdHash
