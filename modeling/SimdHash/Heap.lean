import SimdHash.Exec

/-! Memory that is allocated and freed by hand. The rules say which blocks a
step leaves allocated, and that none is freed which is not. -/

/-- The blocks that are allocated. No address is given out twice, and `room`
more allocations succeed. -/
structure Heap where
  live : Finset ℕ
  next : ℕ
  room : ℕ
  fresh : ∀ a ∈ live, a < next

/-- Why a step did not get to its end: it freed what is not allocated, it was
given no memory and no exception, it met a fault of another kind, or an
exception left it, with the state it had come to. -/
inductive Stop (σ : Type)
  | badFree
  | nullPointer
  | fault (e : Fault)
  | thrown (state : σ) (h : Heap)

abbrev Step (σ α : Type) := Except (Stop σ) α

namespace Heap

variable {σ τ α β : Type} {h h' : Heap} {a : ℕ} {rest : Multiset ℕ}

def alloc (h : Heap) : Option (ℕ × Heap) :=
  if h.room = 0 then none
  else some (h.next,
    { live := insert h.next h.live
      next := h.next + 1
      room := h.room - 1
      fresh := by
        intro a ha
        rcases Finset.mem_insert.mp ha with rfl | ha
        · exact Nat.lt_succ_self _
        · exact (h.fresh a ha).trans (Nat.lt_succ_self _) })

def free (h : Heap) (a : ℕ) : Step σ Heap :=
  if a ∈ h.live then
    .ok { h with
      live := h.live.erase a
      fresh := fun b hb => h.fresh b (Finset.mem_of_mem_erase hb) }
  else .error .badFree

/-- Free what a pointer points to, unless it is null. -/
def release (h : Heap) (ptr : Option ℕ) : Step σ Heap :=
  match ptr with
  | none => .ok h
  | some a => h.free a

/-- An allocation fails exactly if there is no room. -/
theorem alloc_eq_none : h.alloc = none ↔ h.room = 0 := by
  by_cases hroom : h.room = 0 <;> simp [alloc, hroom]

theorem alloc_live (halloc : h.alloc = some (a, h')) :
    h'.live.val = {a} + h.live.val ∧ h'.room + 1 = h.room := by
  by_cases hroom : h.room = 0
  · simp [alloc, hroom] at halloc
  · simp only [alloc, hroom, if_false, Option.some.injEq, Prod.mk.injEq] at halloc
    obtain ⟨rfl, rfl⟩ := halloc
    have hnew : h.next ∉ h.live := fun hmem => lt_irrefl _ (h.fresh _ hmem)
    exact ⟨Finset.insert_val_of_notMem hnew, Nat.sub_add_cancel (Nat.pos_of_ne_zero hroom)⟩

theorem free_live (hlive : h.live.val = {a} + rest) :
    ∃ h', h.free a = (.ok h' : Step σ Heap) ∧ h'.live.val = rest ∧ h'.room = h.room := by
  have hmem : a ∈ h.live := by
    rw [← Finset.mem_val, hlive]
    simp
  refine ⟨_, if_pos hmem, ?_, rfl⟩
  show (h.live.erase a).val = rest
  rw [Finset.erase_val, hlive, Multiset.singleton_add, Multiset.erase_cons_head]

theorem release_live {ptr : Option ℕ} (hlive : h.live.val = ↑ptr.toList + rest) :
    ∃ h', h.release ptr = (.ok h' : Step σ Heap) ∧ h'.live.val = rest ∧ h'.room = h.room := by
  cases ptr with
  | none => exact ⟨h, rfl, by simpa using hlive, rfl⟩
  | some a => exact free_live hlive

theorem release_cases (ptr : Option ℕ) :
    (∃ h', h.release ptr = (.ok h' : Step σ Heap) ∧ h'.room = h.room) ∨
      h.release ptr = (.error .badFree : Step σ Heap) := by
  cases ptr with
  | none => exact .inl ⟨h, rfl, rfl⟩
  | some a =>
    by_cases ha : a ∈ h.live
    · exact .inl ⟨_, if_pos ha, rfl⟩
    · exact .inr (if_neg ha)

theorem free_of_notMem (ha : a ∉ h.live) : h.free a = (.error .badFree : Step σ Heap) := if_neg ha

/-- The end of a step satisfies `Q`, what an exception leaves satisfies `T`, and
nothing is freed that is not allocated. -/
def Leaves (x : Step σ α) (Q : α → Prop) (T : σ → Heap → Prop) : Prop :=
  match x with
  | .ok a => Q a
  | .error .badFree => False
  | .error .nullPointer => True
  | .error (.fault _) => True
  | .error (.thrown state h) => T state h

variable {x : Step σ α} {f : α → Step σ β} {P Q : α → Prop} {R : β → Prop}
  {T T' : σ → Heap → Prop}

theorem Leaves.bind (hx : Leaves x P T) (hf : ∀ a, P a → Leaves (f a) R T) :
    Leaves (x >>= f) R T := by
  cases x with
  | ok a => exact hf a hx
  | error e => cases e <;> exact hx

theorem Leaves.imp (hx : Leaves x P T) (hP : ∀ a, P a → Q a)
    (hT : ∀ state h, T state h → T' state h) : Leaves x Q T' := by
  cases x with
  | ok a => exact hP a hx
  | error e =>
    cases e with
    | thrown state h => exact hT state h hx
    | _ => exact hx

/-- A step on a part of the state. -/
def lift (put : σ → τ) (x : Step σ (σ × Heap)) : Step τ (τ × Heap) :=
  match x with
  | .ok (part, h) => .ok (put part, h)
  | .error .badFree => .error .badFree
  | .error .nullPointer => .error .nullPointer
  | .error (.fault e) => .error (.fault e)
  | .error (.thrown part h) => .error (.thrown (put part) h)

theorem Leaves.lift {x : Step σ (σ × Heap)} {put : σ → τ} {Q : τ × Heap → Prop}
    {T : τ → Heap → Prop}
    (hx : Leaves x (fun r => Q (put r.1, r.2)) fun part h => T (put part) h) :
    Leaves (Heap.lift put x) Q T := by
  cases x with
  | ok r => exact hx
  | error e => cases e <;> exact hx

/-- With room for `need` more blocks a step gets to its end, and uses no more of it. -/
def Fits (need : ℕ) (h : Heap) (x : Step σ (α × Heap)) : Prop :=
  need ≤ h.room → ∃ r, x = .ok r ∧ h.room ≤ r.2.room + need

section Fits

variable {x : Step σ (α × Heap)} {f : α × Heap → Step σ (β × Heap)} {P : α × Heap → Prop}
  {T : σ → Heap → Prop} {m n : ℕ}

theorem fits_ok (n : ℕ) (a : α) : Fits n h (.ok (a, h) : Step σ (α × Heap)) :=
  fun _ => ⟨_, rfl, Nat.le_add_right _ _⟩

theorem Fits.mono (hx : Fits m h x) (hle : m ≤ n) : Fits n h x := by
  intro hroom
  obtain ⟨r, hr, hused⟩ := hx (hle.trans hroom)
  exact ⟨r, hr, hused.trans (Nat.add_le_add_left hle _)⟩

theorem Fits.bind (hx : Fits m h x) (hleaves : Leaves x P T) (hf : ∀ r, P r → Fits n r.2 (f r)) :
    Fits (m + n) h (x >>= f) := by
  intro hroom
  obtain ⟨r, rfl, hused⟩ := hx (by omega)
  obtain ⟨r', hr', hused'⟩ := hf r hleaves (by omega)
  exact ⟨r', hr', by omega⟩

theorem Fits.lift {x : Step σ (σ × Heap)} {put : σ → τ} (hx : Fits n h x) :
    Fits n h (Heap.lift put x) := by
  intro hroom
  obtain ⟨r, rfl, hused⟩ := hx hroom
  exact ⟨_, rfl, hused⟩

end Fits

end Heap
