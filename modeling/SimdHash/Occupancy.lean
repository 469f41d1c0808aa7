import SimdHash.OpenAddressing

/-! How many slots of a table hold tombstones. Filling a slot adds none,
burying a record adds one, and the slots that are neither live nor tombstones
are empty. -/

namespace OpenAddressing

variable {ι ρ : Type*}

def Slot.isTombstone : Slot ρ → Bool
  | empty => false
  | tombstone => true
  | live _ => false

@[simp] theorem isTombstone_iff {x : Slot ρ} : x.isTombstone = true ↔ x = .tombstone := by
  cases x <;> simp [Slot.isTombstone]

def tombstones (S : Finset ι) (t : ι → Slot ρ) : ℕ := (S.filter fun i => (t i).isTombstone).card

variable {S : Finset ι} {t t' : ι → Slot ρ}

theorem tombstones_mono (h : ∀ i ∈ S, t i = .tombstone → t' i = .tombstone) :
    tombstones S t ≤ tombstones S t' := by
  refine Finset.card_le_card fun i hi => ?_
  simp only [Finset.mem_filter, isTombstone_iff] at hi ⊢
  exact ⟨hi.1, h i hi.1 hi.2⟩

theorem tombstones_eq_zero (h : ∀ i ∈ S, t i ≠ .tombstone) : tombstones S t = 0 := by
  rw [tombstones, Finset.card_eq_zero, Finset.filter_eq_empty_iff]
  intro i hi
  simpa using h i hi

/-- Outside of `hidden` some slot is empty, if there are slots enough. -/
theorem exists_empty {hidden : Finset ι}
    (h : (content S t).card + tombstones S t + hidden.card < S.card) :
    ∃ i ∈ S, i ∉ hidden ∧ t i = .empty := by
  classical
  by_contra hno
  push Not at hno
  have hsub : S ⊆ (S.filter fun i => ∃ r, t i = .live r) ∪
      (S.filter fun i => (t i).isTombstone) ∪ hidden := by
    intro i hi
    by_cases hh : i ∈ hidden
    · exact Finset.mem_union_right _ hh
    · refine Finset.mem_union_left _ ?_
      cases ht : t i with
      | empty => exact absurd ht (hno i hi hh)
      | tombstone => simp [hi, ht]
      | live r => simp [hi, ht]
  have hle := (Finset.card_le_card hsub).trans (Finset.card_union_le _ _)
  have hle' := Finset.card_union_le (S.filter fun i => ∃ r, t i = .live r)
    (S.filter fun i => (t i).isTombstone)
  rw [card_content, tombstones] at h
  omega

section Update

variable [DecidableEq ι] {i : ι}

theorem tombstones_fill_le (r : ρ) : tombstones S (Function.update t i (.live r)) ≤ tombstones S t := by
  refine tombstones_mono fun j _ hj => ?_
  by_cases hji : j = i
  · simp [hji] at hj
  · simpa [hji] using hj

theorem tombstones_bury_le : tombstones S (Function.update t i .tombstone) ≤ tombstones S t + 1 := by
  refine le_trans (Finset.card_le_card (t := insert i (S.filter fun j => (t j).isTombstone)) ?_)
    (Finset.card_insert_le _ _)
  intro j hj
  by_cases hji : j = i
  · exact Finset.mem_insert.mpr (.inl hji)
  · refine Finset.mem_insert_of_mem ?_
    simpa [hji] using hj

end Update

end OpenAddressing
