import Mathlib

/-! Computations that return, trap, abort, or are still running when their
fuel is spent, with fuelled `while` loops, counted loops and bounded arrays.
The rules state what a computation ensures of its value and of its faults. -/

/-- `timeout`: a loop was still running when its fuel was spent. -/
inductive Fault
  | timeout
  | outOfBounds
  | assertion
  | divisionByZero
  deriving DecidableEq, Repr

abbrev Exec (α : Type) := Except Fault α

namespace Exec

variable {α β σ : Type}

/-- An `assert`, in a build where assertions are `enabled` or not. -/
def assert (enabled : Bool) (p : Prop) [Decidable p] : Exec Unit :=
  if enabled = true ∧ ¬ p then .error .assertion else .ok ()

/-- A `while (true)` loop: `.inl` goes round again, `.inr` leaves with a value. -/
def loop (body : σ → Exec (σ ⊕ β)) : ℕ → σ → Exec β
  | 0, _ => .error .timeout
  | fuel + 1, s =>
    match body s with
    | .ok (.inl s') => loop body fuel s'
    | .ok (.inr b) => .ok b
    | .error e => .error e

/-- `for (i = 0; i < n; i++)`. -/
def forRange (n : ℕ) (body : ℕ → σ → Exec σ) (s : σ) : Exec σ :=
  match n with
  | 0 => .ok s
  | n + 1 => forRange n body s >>= body n

/-- The value, if there is one, satisfies `Q`; the fault, if there is one, satisfies `E`. -/
def Ensures (x : Exec α) (Q : α → Prop) (E : Fault → Prop) : Prop :=
  match x with
  | .ok a => Q a
  | .error e => E e

section Rules

variable {x : Exec α} {f : α → Exec β} {P Q : α → Prop} {R : β → Prop} {E E' : Fault → Prop}

@[simp] theorem ok_bind (a : α) (f : α → Exec β) : ((.ok a : Exec α) >>= f) = f a := rfl

@[simp] theorem error_bind (e : Fault) (f : α → Exec β) :
    ((.error e : Exec α) >>= f) = .error e := rfl

@[simp] theorem pure_eq (a : α) : (pure a : Exec α) = .ok a := rfl

theorem bind_eq_ok {b : β} : x >>= f = .ok b ↔ ∃ a, x = .ok a ∧ f a = .ok b := by
  cases x <;> simp

@[simp] theorem ensures_ok {a : α} : Ensures (.ok a) Q E ↔ Q a := Iff.rfl

@[simp] theorem ensures_error {e : Fault} : Ensures (.error e) Q E ↔ E e := Iff.rfl

theorem Ensures.value {a : α} (h : Ensures x Q E) (hx : x = .ok a) : Q a := by
  simpa [hx] using h

theorem Ensures.fault {e : Fault} (h : Ensures x Q E) (hx : x = .error e) : E e := by
  simpa [hx] using h

theorem Ensures.imp (h : Ensures x P E) (hv : ∀ a, P a → Q a) (he : ∀ e, E e → E' e) :
    Ensures x Q E' := by
  cases x with
  | ok a => exact hv a h
  | error e => exact he e h

theorem Ensures.mono (h : Ensures x P E) (hv : ∀ a, P a → Q a) : Ensures x Q E :=
  h.imp hv fun _ he => he

theorem Ensures.withValue (h : Ensures x Q E) : Ensures x (fun a => Q a ∧ x = .ok a) E := by
  cases x with
  | ok a => exact ⟨h, rfl⟩
  | error e => exact h

theorem Ensures.bind (h : Ensures x P E) (hf : ∀ a, P a → Ensures (f a) R E) :
    Ensures (x >>= f) R E := by
  cases x with
  | ok a => exact hf a h
  | error e => exact h

theorem Ensures.returns (h : Ensures x Q E) (hE : ∀ e, ¬ E e) : ∃ a, x = .ok a ∧ Q a := by
  cases x with
  | ok a => exact ⟨a, rfl, h⟩
  | error e => exact False.elim (hE e h)

theorem Ensures.and_fault (h : Ensures x Q E) (h' : ∀ e, x = .error e → E' e) :
    Ensures x Q (fun e => E e ∧ E' e) := by
  cases x with
  | ok a => exact h
  | error e => exact ⟨h, h' e rfl⟩

/-- A computation that ends, and that returns exactly where `p` holds. -/
theorem Ensures.returns_iff {p : Prop} (h : Ensures x Q (fun e => ¬ p ∧ e ≠ .timeout))
    (hQ : ∀ a, Q a → p) : x ≠ .error .timeout ∧ ((∃ a, x = .ok a) ↔ p) := by
  cases x with
  | ok a => exact ⟨by simp, iff_of_true ⟨a, rfl⟩ (hQ a h)⟩
  | error e => exact ⟨fun he => h.2 (Except.error.inj he), iff_of_false (by simp) h.1⟩

theorem assert_of (enabled : Bool) {p : Prop} [Decidable p] (h : p) : assert enabled p = .ok () :=
  if_neg fun hn => hn.2 h

theorem assert_eq_ok {enabled : Bool} {p : Prop} [Decidable p] :
    assert enabled p = .ok () ↔ (enabled = true → p) := by
  by_cases hp : enabled = true ∧ ¬ p
  · rw [assert, if_pos hp]
    exact iff_of_false (by simp) fun h => hp.2 (h hp.1)
  · rw [assert, if_neg hp]
    exact iff_of_true rfl fun henabled => by_contra fun hn => hp ⟨henabled, hn⟩

theorem ensures_assert {enabled : Bool} {p : Prop} [Decidable p]
    (h : enabled = true → ¬ p → E .assertion) :
    Ensures (assert enabled p) (fun _ => enabled = true → p) E := by
  by_cases hp : enabled = true ∧ ¬ p
  · rw [assert, if_pos hp]
    exact h hp.1 hp.2
  · rw [assert, if_neg hp]
    exact fun henabled => by_contra fun hn => hp ⟨henabled, hn⟩

@[simp] theorem assert_disabled {p : Prop} [Decidable p] : assert false p = .ok () := rfl

/-- The loop rule. `I n` holds after `n` rounds; a timeout is reported after
`fuel` of them. -/
theorem ensures_loop {body : σ → Exec (σ ⊕ β)} {I : ℕ → σ → Prop} {fuel : ℕ} {s : σ}
    (h : I 0 s)
    (hbody : ∀ n s, n < fuel → I n s →
      Ensures (body s) (Sum.elim (I (n + 1)) R) E)
    (hout : ∀ s, I fuel s → E .timeout) : Ensures (loop body fuel s) R E := by
  induction fuel generalizing I s with
  | zero => exact hout s h
  | succ fuel ih =>
    have hb := hbody 0 s (Nat.succ_pos fuel) h
    cases hs : body s with
    | error e => simpa [loop, hs] using hb
    | ok r =>
      rw [hs] at hb
      cases r with
      | inl s' =>
        simp only [loop, hs]
        exact ih (I := fun n => I (n + 1)) hb
          (fun n t hn ht => hbody (n + 1) t (by omega) ht) hout
      | inr b => simpa [loop, hs] using hb

/-- The states that a loop started at `s` comes to. -/
def Rounds (body : σ → Exec (σ ⊕ β)) (s : σ) : σ → Prop :=
  Relation.ReflTransGen (fun t t' => body t = .ok (.inl t')) s

/-- The loop rule, for a body that is only run where the loop comes to. -/
theorem ensures_loop_rounds {body : σ → Exec (σ ⊕ β)} {I : ℕ → σ → Prop} {fuel : ℕ} {s : σ}
    (h : I 0 s)
    (hbody : ∀ n t, n < fuel → Rounds body s t → I n t →
      Ensures (body t) (Sum.elim (I (n + 1)) R) E)
    (hout : ∀ t, I fuel t → E .timeout) : Ensures (loop body fuel s) R E := by
  refine ensures_loop (I := fun n t => Rounds body s t ∧ I n t) ⟨.refl, h⟩ ?_ ?_
  · intro n t hn hI
    obtain ⟨hrounds, ht⟩ := hI
    refine (hbody n t hn hrounds ht).withValue.mono ?_
    intro r hr
    obtain ⟨hr, hvalue⟩ := hr
    cases r with
    | inl t' => exact ⟨hrounds.tail hvalue, hr⟩
    | inr b => exact hr
  · intro t hI
    exact hout t hI.2

theorem ensures_forRange_prefix {body : ℕ → σ → Exec σ} {I : ℕ → σ → Prop} {n : ℕ} {s : σ}
    (h : I 0 s)
    (hbody : ∀ i t, i < n → forRange i body s = .ok t → I i t →
      Ensures (body i t) (I (i + 1)) E) :
    Ensures (forRange n body s) (I n) E := by
  induction n with
  | zero => exact h
  | succ n ih =>
    refine (ih fun i t hi => hbody i t (by omega)).withValue.bind ?_
    intro t ht
    exact hbody n t (by omega) ht.2 ht.1

theorem ensures_forRange {body : ℕ → σ → Exec σ} {I : ℕ → σ → Prop} {n : ℕ} {s : σ}
    (h : I 0 s) (hbody : ∀ i s, i < n → I i s → Ensures (body i s) (I (i + 1)) E) :
    Ensures (forRange n body s) (I n) E :=
  ensures_forRange_prefix h fun i t hi _ => hbody i t hi

end Rules

end Exec

/-- An allocated array of `size` cells. What `cell` gives outside of them is
whatever the memory holds there. -/
structure Block (α : Type) where
  size : ℕ
  cell : ℕ → α

namespace Block

variable {α : Type}

def read (b : Block α) (i : ℕ) : Exec α :=
  if i < b.size then .ok (b.cell i) else .error .outOfBounds

def set (b : Block α) (i : ℕ) (x : α) : Block α :=
  { b with cell := Function.update b.cell i x }

def write (b : Block α) (i : ℕ) (x : α) : Exec (Block α) :=
  if i < b.size then .ok (b.set i x) else .error .outOfBounds

theorem read_of_lt {b : Block α} {i : ℕ} (h : i < b.size) : b.read i = .ok (b.cell i) :=
  if_pos h

theorem write_of_lt {b : Block α} {i : ℕ} (h : i < b.size) (x : α) :
    b.write i x = .ok (b.set i x) := if_pos h

@[simp] theorem set_size (b : Block α) (i : ℕ) (x : α) : (b.set i x).size = b.size := rfl

@[simp] theorem set_cell (b : Block α) (i : ℕ) (x : α) :
    (b.set i x).cell = Function.update b.cell i x := rfl

@[simp] theorem set_cell_self (b : Block α) (i : ℕ) : b.set i (b.cell i) = b := by
  rw [set, Function.update_eq_self]

end Block
