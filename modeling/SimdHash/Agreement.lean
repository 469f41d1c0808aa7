import SimdHash.Exec

/-! Two computations side by side: one that has less fuel than the other, and
two that return related values or fail in the same way. -/

namespace Exec

variable {α α' β β' γ σ σ' : Type}

section Fuel

/-- `x` gives what `y` gives, unless it runs out of fuel. -/
def Approx (x y : Exec α) : Prop := x = .error .timeout ∨ x = y

theorem Approx.refl (x : Exec α) : Approx x x := .inr rfl

theorem Approx.bind {x y : Exec α} {f g : α → Exec β} (h : Approx x y)
    (hf : ∀ a, Approx (f a) (g a)) : Approx (x >>= f) (y >>= g) := by
  rcases h with rfl | rfl
  · exact .inl rfl
  · cases x with
    | ok a => exact hf a
    | error e => exact .inr rfl

theorem Approx.ite {p : Prop} [Decidable p] {x x' y y' : Exec α} (h : Approx x x')
    (h' : Approx y y') : Approx (if p then x else y) (if p then x' else y') := by
  by_cases hp : p
  · simpa only [if_pos hp] using h
  · simpa only [if_neg hp] using h'

theorem Approx.value {x y : Exec α} {a : α} (h : Approx x y) (hx : x = .ok a) : y = .ok a := by
  rcases h with h | rfl
  · rw [h] at hx
    cases hx
  · exact hx

theorem loop_approx {body body' : σ → Exec (σ ⊕ β)} (h : ∀ s, Approx (body s) (body' s))
    {fuel fuel' : ℕ} (hle : fuel ≤ fuel') (s : σ) :
    Approx (loop body fuel s) (loop body' fuel' s) := by
  induction fuel generalizing fuel' s with
  | zero => exact .inl rfl
  | succ fuel ih =>
    obtain ⟨fuel', rfl⟩ : ∃ n, fuel' = n + 1 := ⟨fuel' - 1, by omega⟩
    rcases h s with hs | hs
    · exact .inl (by simp only [loop, hs])
    · simp only [loop, hs]
      cases body' s with
      | error e => exact .inr rfl
      | ok r =>
        cases r with
        | inl t => exact ih (by omega) t
        | inr b => exact .inr rfl

theorem forRange_approx {body body' : ℕ → σ → Exec σ} (h : ∀ i s, Approx (body i s) (body' i s))
    (n : ℕ) (s : σ) : Approx (forRange n body s) (forRange n body' s) := by
  induction n with
  | zero => exact .refl _
  | succ n ih => exact ih.bind (h n)

end Fuel

section Agree

/-- Both return, with values related by `R`, or both fail in the same way. -/
def Agree (R : α → β → Prop) : Exec α → Exec β → Prop
  | .ok a, .ok b => R a b
  | .error e, .error e' => e = e'
  | _, _ => False

variable {R : α → α' → Prop} {S : β → β' → Prop} {x : Exec α} {x' : Exec α'}

@[simp] theorem agree_ok {a : α} {a' : α'} : Agree R (.ok a) (.ok a') ↔ R a a' := Iff.rfl

theorem Agree.of_eq {y : Exec α} (h : x = y) : Agree Eq x y := by
  subst h
  cases x <;> rfl

theorem Agree.eq {y : Exec α} (h : Agree Eq x y) : x = y := by
  cases x <;> cases y <;> simp_all [Agree]

theorem Agree.mono {R' : α → α' → Prop} (h : Agree R x x') (hR : ∀ a a', R a a' → R' a a') :
    Agree R' x x' := by
  cases x <;> cases x' <;> simp_all [Agree]

theorem Agree.bind {f : α → Exec β} {f' : α' → Exec β'} (h : Agree R x x')
    (hf : ∀ a a', R a a' → Agree S (f a) (f' a')) : Agree S (x >>= f) (x' >>= f') := by
  cases x with
  | ok a =>
    cases x' with
    | ok a' => exact hf a a' h
    | error e' => exact False.elim h
  | error e =>
    cases x' with
    | ok a' => exact False.elim h
    | error e' => exact h

theorem Agree.value {a : α} (h : Agree R x x') (hx : x = .ok a) : ∃ a', x' = .ok a' ∧ R a a' := by
  subst hx
  cases x' with
  | ok a' => exact ⟨a', rfl, h⟩
  | error e' => exact False.elim h

theorem Agree.ensures {Q : α → Prop} {Q' : α' → Prop} {E E' : Fault → Prop} (h : Agree R x x')
    (hx : Ensures x Q E) (hx' : Ensures x' Q' E') :
    Agree (fun a a' => R a a' ∧ Q a ∧ Q' a') x x' := by
  cases x with
  | ok a =>
    cases x' with
    | ok a' => exact ⟨h, hx, hx'⟩
    | error e' => exact False.elim h
  | error e =>
    cases x' with
    | ok a' => exact False.elim h
    | error e' => exact h

theorem agree_loop {body : σ → Exec (σ ⊕ β)} {body' : σ' → Exec (σ' ⊕ β')} {I : σ → σ' → Prop}
    {s : σ} {s' : σ'} (h : I s s')
    (hbody : ∀ s s', I s s' → Agree (Sum.LiftRel I S) (body s) (body' s')) (fuel : ℕ) :
    Agree S (loop body fuel s) (loop body' fuel s') := by
  induction fuel generalizing s s' with
  | zero => rfl
  | succ fuel ih =>
    have hb := hbody s s' h
    cases hs : body s with
    | error e =>
      cases hs' : body' s' with
      | error e' =>
        rw [hs, hs'] at hb
        simp only [loop, hs, hs']
        exact hb
      | ok r' =>
        rw [hs, hs'] at hb
        exact False.elim hb
    | ok r =>
      cases hs' : body' s' with
      | error e' =>
        rw [hs, hs'] at hb
        exact False.elim hb
      | ok r' =>
        rw [hs, hs', agree_ok] at hb
        cases hb with
        | inl hI => simpa only [loop, hs, hs'] using ih hI
        | inr hS => simpa only [loop, hs, hs', agree_ok] using hS

theorem agree_forRange {body : ℕ → σ → Exec σ} {body' : ℕ → σ' → Exec σ'}
    {I : ℕ → σ → σ' → Prop} {n : ℕ} {s : σ} {s' : σ'} (h : I 0 s s')
    (hbody : ∀ i s s', i < n → I i s s' → Agree (I (i + 1)) (body i s) (body' i s')) :
    Agree (I n) (forRange n body s) (forRange n body' s') := by
  induction n with
  | zero => exact h
  | succ n ih =>
    exact (ih fun i s s' hi => hbody i s s' (by omega)).bind fun t t' ht =>
      hbody n t t' (by omega) ht

end Agree

section Congruence

end Congruence

end Exec
