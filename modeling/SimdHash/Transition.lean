import Mathlib

/-! Runs of a labelled transition system, the invariant rule, and refinement
of a deterministic specification, with the exact condition on a run under
which it gives the specified outputs. -/

namespace Transition

variable {σ τ α ρ : Type*}

/-- The steps allowed by `ok` in the state before the step. -/
def guard (ok : σ → α → Prop) (step : σ → α → ρ → σ → Prop) : σ → α → ρ → σ → Prop :=
  fun s a r t => ok s a ∧ step s a r t

inductive Run (step : σ → α → ρ → σ → Prop) : σ → List (α × ρ) → σ → Prop
  | nil (s : σ) : Run step s [] s
  | cons {s t u : σ} {a : α} {r : ρ} {trace : List (α × ρ)} :
      step s a r t → Run step t trace u → Run step s ((a, r) :: trace) u

/-- What a deterministic specification outputs, and the state it ends in. -/
def replay (spec : τ → α → ρ × τ) : τ → List α → List ρ × τ
  | m, [] => ([], m)
  | m, a :: rest =>
    ((spec m a).1 :: (replay spec (spec m a).2 rest).1, (replay spec (spec m a).2 rest).2)

section Runs

variable {step step' : σ → α → ρ → σ → Prop} {s t u : σ} {trace more : List (α × ρ)}

theorem Run.append (h : Run step s trace t) (h' : Run step t more u) :
    Run step s (trace ++ more) u := by
  induction h with
  | nil => exact h'
  | cons hs _ ih => exact .cons hs (ih h')

theorem Run.snoc {a : α} {r : ρ} (h : Run step s trace t) (hs : step t a r u) :
    Run step s (trace ++ [(a, r)]) u :=
  h.append (.cons hs (.nil u))

theorem Run.imp (h : Run step s trace t) (hs : ∀ s a r t, step s a r t → step' s a r t) :
    Run step' s trace t := by
  induction h with
  | nil => exact .nil _
  | cons hst _ ih => exact .cons (hs _ _ _ _ hst) ih

theorem Run.guard_of {ok : σ → α → Prop} (h : Run step s trace t)
    (hok : ∀ call ∈ trace, ∀ s, ok s call.1) : Run (guard ok step) s trace t := by
  induction h with
  | nil => exact .nil _
  | cons hst _ ih =>
    exact .cons ⟨hok _ List.mem_cons_self _, hst⟩
      (ih fun call hcall => hok call (List.mem_cons_of_mem _ hcall))

/-- What holds at the start and is kept by every step holds at the end. -/
theorem Run.invariant {I : σ → Prop} (h : Run step s trace t)
    (hstep : ∀ s a r t, I s → step s a r t → I t) (hs : I s) : I t := by
  induction h with
  | nil => exact hs
  | cons hst _ ih => exact ih (hstep _ _ _ _ hs hst)

end Runs

section Cost

/-- A run whose steps, each at its `cost`, cost so much together. -/
inductive Spends (step : σ → α → ρ → σ → Prop) (cost : σ → σ → ℕ) :
    σ → List (α × ρ) → ℕ → σ → Prop
  | nil (s : σ) : Spends step cost s [] 0 s
  | cons {s t u : σ} {a : α} {r : ρ} {trace : List (α × ρ)} {n : ℕ} :
      step s a r t → Spends step cost t trace n u →
      Spends step cost s ((a, r) :: trace) (cost s t + n) u

variable {step : σ → α → ρ → σ → Prop} {cost : σ → σ → ℕ} {s t : σ} {trace : List (α × ρ)} {n : ℕ}

theorem Run.exists_spends (h : Run step s trace t) : ∃ n, Spends step cost s trace n t := by
  induction h with
  | nil s => exact ⟨0, .nil s⟩
  | cons hst _ ih =>
    obtain ⟨n, hn⟩ := ih
    exact ⟨_, .cons hst hn⟩

theorem Spends.run (h : Spends step cost s trace n t) : Run step s trace t := by
  induction h with
  | nil s => exact .nil s
  | cons hst _ ih => exact .cons hst ih

/-- The potential method: what a step costs and leaves is covered by what it
finds and what is paid for it. -/
theorem Spends.amortised {I : σ → Prop} {potential : σ → ℕ} {pay : α × ρ → ℕ}
    (h : Spends step cost s trace n t)
    (hstep : ∀ s a r t, I s → step s a r t →
      I t ∧ cost s t + potential t ≤ potential s + pay (a, r)) (hs : I s) :
    n + potential t ≤ potential s + (trace.map pay).sum := by
  induction h with
  | nil s => simp
  | cons hst _ ih =>
    obtain ⟨hI, hpaid⟩ := hstep _ _ _ _ hs hst
    have hrest := ih hI
    rw [List.map_cons, List.sum_cons]
    omega

end Cost

section Refinement

variable {step : σ → α → ρ → σ → Prop} {spec : τ → α → ρ × τ} {R : σ → τ → Prop}
  {s t : σ} {m : τ} {trace : List (α × ρ)}

/-- Forward simulation of a deterministic specification. -/
theorem Run.refines (h : Run step s trace t)
    (hsim : ∀ s m a r t, R s m → step s a r t → (spec m a).1 = r ∧ R t (spec m a).2)
    (hR : R s m) :
    (replay spec m (trace.map Prod.fst)).1 = trace.map Prod.snd ∧
      R t (replay spec m (trace.map Prod.fst)).2 := by
  induction h generalizing m with
  | nil => exact ⟨rfl, hR⟩
  | cons hst _ ih =>
    obtain ⟨hout, hR'⟩ := hsim _ _ _ _ _ hR hst
    obtain ⟨hrest, hend⟩ := ih hR'
    exact ⟨by simp [replay, hout, hrest], by simpa [replay] using hend⟩

/-- A step that ends in `t` with output `r` gives the specified output exactly
under `ok`, and ends in what the specification does. -/
def Follows (R : σ → τ → Prop) (ok : Prop) (expected : ρ × τ) (r : ρ) (t : σ) : Prop :=
  (expected.1 = r ↔ ok) ∧ (ok → R t expected.2)

theorem Follows.agree {ok : Prop} {expected : ρ × τ} {r : ρ} (hout : expected.1 = r)
    (hR : R t expected.2) (hok : ok) : Follows R ok expected r t :=
  ⟨iff_of_true hout hok, fun _ => hR⟩

theorem Follows.differ {ok : Prop} {expected : ρ × τ} {r : ρ} (hout : expected.1 ≠ r)
    (hbad : ¬ ok) : Follows R ok expected r t :=
  ⟨iff_of_false hout hbad, fun hok => absurd hok hbad⟩

/-- When a step gives the specified output exactly under `ok`, a run gives
the specified outputs exactly if each of its steps is `ok`. -/
theorem Run.refines_iff {ok : σ → α → Prop} (h : Run step s trace t)
    (hsim : ∀ s m a r t, R s m → step s a r t → Follows R (ok s a) (spec m a) r t)
    (hR : R s m) :
    (replay spec m (trace.map Prod.fst)).1 = trace.map Prod.snd ↔
      Run (guard ok step) s trace t := by
  constructor
  · intro heq
    induction h generalizing m with
    | nil => exact .nil _
    | cons hst _ ih =>
      simp only [List.map_cons, replay, List.cons.injEq] at heq
      obtain ⟨hiff, hnext⟩ := hsim _ _ _ _ _ hR hst
      have hok := hiff.mp heq.1
      exact .cons ⟨hok, hst⟩ (ih (hnext hok) heq.2)
  · intro hrun
    refine (hrun.refines (R := R) ?_ hR).1
    intro s m a r t hR hr
    obtain ⟨hok, hst⟩ := hr
    obtain ⟨hiff, hnext⟩ := hsim _ _ _ _ _ hR hst
    exact ⟨hiff.mpr hok, hnext hok⟩

/-- Each call is allowed in the state that the specification is then in. -/
def Allowed (spec : τ → α → ρ × τ) (ok : τ → α → Prop) : τ → List α → Prop
  | _, [] => True
  | m, a :: rest => ok m a ∧ Allowed spec ok (spec m a).2 rest

instance decidableAllowed {ok : τ → α → Prop} [∀ m a, Decidable (ok m a)] :
    ∀ (m : τ) (calls : List α), Decidable (Allowed spec ok m calls)
  | _, [] => inferInstanceAs (Decidable True)
  | m, a :: rest =>
    have : Decidable (Allowed spec ok (spec m a).2 rest) := decidableAllowed _ rest
    inferInstanceAs (Decidable (ok m a ∧ Allowed spec ok (spec m a).2 rest))

/-- A client that makes the allowed calls only gets the specified outputs. -/
theorem Run.refines_allowed {ok : τ → α → Prop} (h : Run step s trace t)
    (hsim : ∀ s m a r t, R s m → ok m a → step s a r t → (spec m a).1 = r ∧ R t (spec m a).2)
    (hR : R s m) (hallowed : Allowed spec ok m (trace.map Prod.fst)) :
    (replay spec m (trace.map Prod.fst)).1 = trace.map Prod.snd ∧
      R t (replay spec m (trace.map Prod.fst)).2 := by
  induction h generalizing m with
  | nil => exact ⟨rfl, hR⟩
  | cons hst _ ih =>
    obtain ⟨hok, hallowed⟩ := hallowed
    obtain ⟨hout, hR'⟩ := hsim _ _ _ _ _ hR hok hst
    obtain ⟨hrest, hend⟩ := ih hR' hallowed
    exact ⟨by simp [replay, hout, hrest], by simpa [replay] using hend⟩

/-- A specification that another one follows, with a view of its states. -/
theorem replay_map {υ : Type*} {spec' : υ → α → ρ × υ} (view : υ → τ)
    (hview : ∀ m a, (spec (view m) a).1 = (spec' m a).1 ∧
      (spec (view m) a).2 = view (spec' m a).2) (m : υ) (calls : List α) :
    (replay spec (view m) calls).1 = (replay spec' m calls).1 ∧
      (replay spec (view m) calls).2 = view (replay spec' m calls).2 := by
  induction calls generalizing m with
  | nil => exact ⟨rfl, rfl⟩
  | cons a rest ih =>
    obtain ⟨hout, hnext⟩ := hview m a
    obtain ⟨hrest, hend⟩ := ih (spec' m a).2
    simp [replay, hout, hnext, hrest, hend]

end Refinement

end Transition
