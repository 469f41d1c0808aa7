import Mathlib

/-! Open addressing with tombstones over an arbitrary set of slots. A probe
looks at a sequence of windows; a record is reached when no window before one
that holds its slot has an empty slot. -/

namespace OpenAddressing

inductive Slot (ρ : Type*)
  | empty
  | tombstone
  | live (record : ρ)

variable {ι ρ τ : Type*}

def Slot.held : Slot ρ → Multiset ρ
  | empty => 0
  | tombstone => 0
  | live r => {r}

def Slot.map (f : ρ → τ) : Slot ρ → Slot τ
  | empty => .empty
  | tombstone => .tombstone
  | live r => .live (f r)

@[simp] theorem held_empty : (Slot.empty : Slot ρ).held = 0 := rfl

@[simp] theorem held_tombstone : (Slot.tombstone : Slot ρ).held = 0 := rfl

@[simp] theorem held_live (r : ρ) : (Slot.live r).held = {r} := rfl

@[simp] theorem mem_held {x : Slot ρ} {r : ρ} : r ∈ x.held ↔ x = .live r := by
  cases x <;> simp [Slot.held, eq_comm]

theorem held_eq_zero {x : Slot ρ} (h : ∀ r, x ≠ .live r) : x.held = 0 :=
  Multiset.eq_zero_of_forall_notMem fun r hr => h r (mem_held.mp hr)

theorem held_map (f : ρ → τ) (x : Slot ρ) : (x.map f).held = x.held.map f := by
  cases x <;> rfl

section Windows

variable (t : ι → Slot ρ) (W : Set ι)

def HasEmpty : Prop := ∃ i ∈ W, t i = .empty

def HasFree : Prop := ∃ i ∈ W, ∀ r, t i ≠ .live r

def Holds (P : ρ → Prop) : Prop := ∃ i ∈ W, ∃ r, t i = .live r ∧ P r

variable {t W}

theorem HasEmpty.hasFree (h : HasEmpty t W) : HasFree t W := by
  obtain ⟨i, hi, he⟩ := h
  exact ⟨i, hi, by simp [he]⟩

end Windows

section Chains

def Reached (t : ι → Slot ρ) (probe : ℕ → Set ι) (i : ι) : Prop :=
  ∃ n, i ∈ probe n ∧ ∀ m < n, ¬ HasEmpty t (probe m)

/-- An empty slot of the first window that has one. -/
def FirstEmpty (t : ι → Slot ρ) (probe : ℕ → Set ι) (i : ι) : Prop :=
  ∃ n, i ∈ probe n ∧ t i = .empty ∧ ∀ m < n, ¬ HasEmpty t (probe m)

def Chained (t : ι → Slot ρ) (probe : ρ → ℕ → Set ι) : Prop :=
  ∀ i r, t i = .live r → Reached t (probe r) i

variable {t t' : ι → Slot ρ} {probe : ρ → ℕ → Set ι}

theorem Reached.of_empty {w : ℕ → Set ι} {i : ι} (h : Reached t w i)
    (he : ∀ j, t' j = .empty → t j = .empty) : Reached t' w i := by
  obtain ⟨n, hi, hm⟩ := h
  refine ⟨n, hi, fun m hmn hmt => hm m hmn ?_⟩
  obtain ⟨j, hj, hjt⟩ := hmt
  exact ⟨j, hj, he j hjt⟩

theorem FirstEmpty.reached {w : ℕ → Set ι} {i : ι} (h : FirstEmpty t w i) : Reached t w i := by
  obtain ⟨n, hi, -, hbefore⟩ := h
  exact ⟨n, hi, hbefore⟩

theorem FirstEmpty.empty {w : ℕ → Set ι} {i : ι} (h : FirstEmpty t w i) : t i = .empty := by
  obtain ⟨n, -, hempty, -⟩ := h
  exact hempty

/-- Nothing that satisfies `P` has been missed when a probe that found nothing
comes to a window with an empty slot. -/
theorem Chained.absent (h : Chained t probe) {w : ℕ → Set ι} {P : ρ → Prop} {n : ℕ}
    (hn : HasEmpty t (w n)) (hm : ∀ m ≤ n, ¬ Holds t (w m) P) {i : ι} {r : ρ}
    (hi : t i = .live r) (hr : probe r = w) : ¬ P r := by
  intro hP
  obtain ⟨k, hik, hbefore⟩ := h i r hi
  rw [hr] at hik hbefore
  by_cases hk : k ≤ n
  · exact hm k hk ⟨i, hik, r, hi, hP⟩
  · exact hbefore n (by omega) hn

section Update

variable [DecidableEq ι] {i : ι} {x : Slot ρ}

theorem Chained.update (h : Chained t probe) (hx : x ≠ .empty)
    (hr : ∀ r, x = .live r → Reached t (probe r) i) :
    Chained (Function.update t i x) probe := by
  have he : ∀ j, Function.update t i x j = .empty → t j = .empty := by
    intro j hj
    by_cases hji : j = i
    · subst j
      exact absurd (by simpa using hj) hx
    · simpa [hji] using hj
  intro j r hj
  by_cases hji : j = i
  · subst j
    exact (hr r (by simpa using hj)).of_empty he
  · exact (h j r (by simpa [hji] using hj)).of_empty he

theorem Chained.fill (h : Chained t probe) {r : ρ} (hr : Reached t (probe r) i) :
    Chained (Function.update t i (.live r)) probe :=
  h.update (by simp) fun _ he => by cases he; exact hr

theorem Chained.bury (h : Chained t probe) : Chained (Function.update t i .tombstone) probe :=
  h.update (by simp) (by simp)

/-- The tables that arise from `start` when records are put one after another,
each into the first window of its probe that has an empty slot at that time. -/
inductive Filled (probe : ρ → ℕ → Set ι) (start : ι → Slot ρ) : (ι → Slot ρ) → Prop
  | start : Filled probe start start
  | put {t : ι → Slot ρ} {i : ι} {r : ρ} : Filled probe start t → FirstEmpty t (probe r) i →
      Filled probe start (Function.update t i (.live r))

end Update

end Chains

section Content

/-- The records of the live slots of `S`. -/
def content (S : Finset ι) (t : ι → Slot ρ) : Multiset ρ := ∑ i ∈ S, (t i).held

variable {S : Finset ι} {t t' : ι → Slot ρ} {i j : ι}

@[simp] theorem mem_content {r : ρ} : r ∈ content S t ↔ ∃ i ∈ S, t i = .live r := by
  simp [content, Multiset.mem_sum]

theorem content_congr (h : ∀ i ∈ S, t i = t' i) : content S t = content S t' :=
  Finset.sum_congr rfl fun i hi => by rw [h i hi]

theorem content_map (f : ρ → τ) : content S (fun i => (t i).map f) = (content S t).map f := by
  simp only [content, held_map]
  exact (map_sum (Multiset.mapAddMonoidHom f) _ _).symm

theorem content_eq_zero (h : ∀ i ∈ S, ∀ r, t i ≠ .live r) : content S t = 0 :=
  Finset.sum_eq_zero fun i hi => held_eq_zero (h i hi)

theorem card_content [DecidablePred fun i => ∃ r, t i = .live r] :
    (content S t).card = (S.filter fun i => ∃ r, t i = .live r).card := by
  rw [content, Multiset.card_sum, Finset.card_filter]
  refine Finset.sum_congr rfl fun i _ => ?_
  split_ifs with h
  · obtain ⟨r, hr⟩ := h
    simp [hr]
  · simp [held_eq_zero fun r hr => h ⟨r, hr⟩]

theorem card_content_le : (content S t).card ≤ S.card := by
  classical
  rw [card_content]
  exact Finset.card_filter_le _ _

theorem exists_free {hidden : Finset ι} (h : (content S t).card + hidden.card < S.card) :
    ∃ i ∈ S, i ∉ hidden ∧ ∀ r, t i ≠ .live r := by
  classical
  by_contra hno
  push Not at hno
  have hsub : S ⊆ (S.filter fun i => ∃ r, t i = .live r) ∪ hidden := by
    intro i hi
    by_cases hh : i ∈ hidden
    · exact Finset.mem_union_right _ hh
    · exact Finset.mem_union_left _ (Finset.mem_filter.mpr ⟨hi, hno i hi hh⟩)
  have hle := (Finset.card_le_card hsub).trans (Finset.card_union_le _ _)
  rw [card_content] at h
  omega

section Update

variable [DecidableEq ι] {x : Slot ρ} {r : ρ}

theorem content_eq_add (hi : i ∈ S) : content S t = (t i).held + content (S.erase i) t :=
  (Finset.add_sum_erase S _ hi).symm

theorem content_update (hi : i ∈ S) :
    content S (Function.update t i x) = x.held + content (S.erase i) t := by
  rw [content_eq_add hi, Function.update_self]
  congr 1
  exact content_congr fun j hj => Function.update_of_ne (Finset.ne_of_mem_erase hj) _ _

theorem content_fill (hi : i ∈ S) (hfree : ∀ r, t i ≠ .live r) :
    content S (Function.update t i (.live r)) = r ::ₘ content S t := by
  rw [content_update hi, content_eq_add (t := t) hi, held_eq_zero hfree, zero_add]
  rfl

theorem content_bury (hi : i ∈ S) (hr : t i = .live r) (hx : x.held = 0) :
    content S t = r ::ₘ content S (Function.update t i x) := by
  rw [content_update hi, content_eq_add hi, hr, hx, zero_add]
  rfl

theorem content_replace {r' : ρ} (hi : i ∈ S) (hr : t i = .live r) :
    ∃ rest, content S t = r ::ₘ rest ∧
      content S (Function.update t i (.live r')) = r' ::ₘ rest := by
  refine ⟨content (S.erase i) t, ?_, content_update hi⟩
  rw [content_eq_add hi, hr]
  rfl

theorem slot_unique {κ : Type*} {key : ρ → κ} (h : ((content S t).map key).Nodup)
    (hi : i ∈ S) (hj : j ∈ S) {r' : ρ} (hr : t i = .live r) (hr' : t j = .live r')
    (hk : key r = key r') : i = j := by
  by_contra hij
  have hj' : j ∈ S.erase i := Finset.mem_erase.mpr ⟨Ne.symm hij, hj⟩
  rw [content_eq_add hi, content_eq_add hj', hr, hr'] at h
  simp [hk] at h

end Update

end Content

end OpenAddressing
