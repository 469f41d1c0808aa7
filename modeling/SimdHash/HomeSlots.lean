import SimdHash.OpenAddressing

/-! Tables in which every record is in its home slot. No two of their records
have the same home, and a home that no record has is free. -/

namespace OpenAddressing

variable {ι ρ τ : Type*} {t : ι → Slot ρ} {home : ρ → ι} {S : Finset ι} {i : ι} {r : ρ}

def Homed (t : ι → Slot ρ) (home : ρ → ι) : Prop := ∀ i r, t i = .live r → home r = i

theorem homed_of_not_live (h : ∀ i r, t i ≠ .live r) : Homed t home :=
  fun i r hr => absurd hr (h i r)

theorem Homed.nodup (h : Homed t home) : ((content S t).map home).Nodup := by
  have hheld (i : ι) : ((t i).held.map home) ≤ {i} := by
    cases hi : t i with
    | empty => simp
    | tombstone => simp
    | live r => simp [h i r hi]
  have hle : (content S t).map home ≤ ∑ i ∈ S, {i} := by
    have hsum : (content S t).map home = ∑ i ∈ S, (t i).held.map home :=
      map_sum (Multiset.mapAddMonoidHom home) _ _
    rw [hsum]
    exact Finset.sum_le_sum fun i _ => hheld i
  refine Multiset.nodup_of_le hle ?_
  rw [Finset.sum_multiset_singleton]
  exact S.nodup

theorem Homed.free (hS : ∀ i r, t i = .live r → i ∈ S)
    (hr : home r ∉ (content S t).map home) (h : Homed t home) (r' : ρ) :
    t (home r) ≠ .live r' := by
  intro hlive
  refine hr (Multiset.mem_map.mpr ⟨r', mem_content.mpr ⟨_, hS _ _ hlive, hlive⟩, ?_⟩)
  exact h _ _ hlive

section Update

variable [DecidableEq ι]

theorem Homed.fill (h : Homed t home) (hr : home r = i) :
    Homed (Function.update t i (.live r)) home := by
  intro j r' hj
  by_cases hji : j = i
  · subst j
    obtain rfl : r = r' := by simpa using hj
    exact hr
  · exact h j r' (by simpa [hji] using hj)

theorem Homed.bury (h : Homed t home) : Homed (Function.update t i .tombstone) home := by
  intro j r hj
  have hji : j ≠ i := by
    rintro rfl
    simp at hj
  exact h j r (by simpa [hji] using hj)

end Update

end OpenAddressing
