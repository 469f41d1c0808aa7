import SimdHash.Tombstones

/-! What a client has to keep to for a `Map` or `Set` to be a finite map. A
removal leaves the other keys stale, until the table is rebuilt without its
removed slots; only insertions of stale keys can go wrong. -/

namespace SimdHash

open OpenAddressing TagVector Transition

/-- A finite map with the keys that were stored when a key was removed. -/
structure Ledger (K V : Type) where
  map : Dictionary K V
  stale : Finset K

namespace Ledger

variable {K V : Type} [DecidableEq K] {t : ContainerType}

def spec (l : Ledger K V) (op : Op K V t) : (Result V × ℕ) × Ledger K V :=
  ((l.map.spec op).1,
    { map := (l.map.spec op).2
      stale := match op with
        | .remove key _ => if key ∈ l.map then (l.map.erase key).keys else l.stale
        | .rehash _ => ∅
        | .clear _ => ∅
        | _ => l.stale })

/-- An unchecked insertion is of an absent key, a checked one not of a stale key. -/
def Permits (l : Ledger K V) : Op K V t → Prop
  | .add true key _ => key ∉ l.map
  | .add false key _ => key ∉ l.stale
  | .addOrUpdate key _ _ => key ∉ l.stale
  | _ => True

instance (l : Ledger K V) (op : Op K V t) : Decidable (l.Permits op) :=
  match op with
  | .add true _ _ => inferInstanceAs (Decidable (¬ _))
  | .add false _ _ => inferInstanceAs (Decidable (¬ _))
  | .addOrUpdate _ _ _ => inferInstanceAs (Decidable (¬ _))
  | .tryAdd _ _ _ => inferInstanceAs (Decidable True)
  | .remove _ _ => inferInstanceAs (Decidable True)
  | .contains _ => inferInstanceAs (Decidable True)
  | .tryGetValue _ _ => inferInstanceAs (Decidable True)
  | .tryGetIndex _ _ => inferInstanceAs (Decidable True)
  | .resize _ => inferInstanceAs (Decidable True)
  | .rehash _ => inferInstanceAs (Decidable True)
  | .clear _ => inferInstanceAs (Decidable True)
  | .setMaxLoadFactor _ => inferInstanceAs (Decidable True)

theorem replay_map (l : Ledger K V) (ops : List (Op K V t)) :
    (replay Dictionary.spec l.map ops).1 = (replay spec l ops).1 ∧
      (replay Dictionary.spec l.map ops).2 = (replay spec l ops).2.map :=
  Transition.replay_map map (fun _ _ => ⟨rfl, rfl⟩) l ops

end Ledger

namespace Core

variable {K V : Type} {c : Template K} {s t : Core K V}

section Shadows

variable {key : K}

/-- Where every stored key is stored still, a key that is shadowed was shadowed. -/
theorem Shadowed.of_kept (hs : Shadowed c t key) (hfix : c.bFix = false) (hkey : HasKey c s key)
    (hshape : SameShape s t)
    (hlive : ∀ j e, s.slots c j = .live e → ∃ e', t.slots c j = .live e' ∧ e'.key = e.key) :
    Shadowed c s key := by
  obtain ⟨-, n, hfree, hmiss⟩ := hs
  have hwindows : t.windows c = s.windows c := hshape.windows_eq
  rw [hwindows] at hfree
  refine ⟨hkey, n, ?_, ?_⟩
  · obtain ⟨j, hj, hnot⟩ := hfree
    refine ⟨j, hj, fun e he => ?_⟩
    obtain ⟨e', he', -⟩ := hlive j e he
    exact hnot e' he'
  · intro m hm hseen
    obtain ⟨j, hj, e, he, hek⟩ := (seen_iff hfix).mp hseen
    obtain ⟨e', he', hkey'⟩ := hlive j e he
    refine hmiss m hm ((seen_iff hfix).mpr ⟨j, ?_, e', he', hkey'.trans hek⟩)
    rwa [hwindows]

/-- A key that was just put in the first free slot is not shadowed. -/
theorem FilledAt.not_shadowed {bUnique : Bool} {i : ℕ} {e : Entry K V}
    (h : FilledAt c s bUnique key i e t) (hfix : c.bFix = false) : ¬ Shadowed c t key := by
  intro hs
  obtain ⟨-, n, hfree, hmiss⟩ := hs
  obtain ⟨n', hbefore, hmem, -⟩ := h.slot
  have hwindows : t.windows c = s.windows c := h.shape.windows_eq
  rw [hwindows] at hfree
  have hlive : t.slots c i = .live e := by rw [h.slots, Function.update_self]
  by_cases hlt : n < n'
  · obtain ⟨j, hj, hnot⟩ := hfree
    refine hbefore n hlt ⟨j, hj, fun r hr => ?_⟩
    by_cases hji : j = i
    · exact hnot e (hji ▸ hlive)
    · exact hnot r (by rw [h.slots, Function.update_of_ne hji, hr])
  · refine hmiss n' (not_lt.mp hlt) ((seen_iff hfix).mpr ⟨i, ?_, e, hlive, h.key_eq⟩)
    rwa [hwindows]

/-- Only the removal of a stored key shadows a key. -/
theorem Touched.shadowed {op : Op K V c.type} {r : Result V} (h : Touched c s op r t)
    (ht : t.Inv c) (hfix : c.bFix = false)
    (hop : ∀ k offered, op = .remove k offered → ¬ HasKey c s k)
    (hs : Shadowed c t key) : Shadowed c s key := by
  cases h with
  | purged hclean => exact absurd hs (ht.not_shadowed hclean hfix key)
  | kept hshape hslots =>
    have hkey : HasKey c s key := by
      simpa only [HasKey, hslots] using hs.1
    exact hs.of_kept hfix hkey hshape fun j e he => ⟨e, hslots ▸ he, rfl⟩
  | @revalued _ _ _ i e e' hshape hlive hkey hslots =>
    have hstored : HasKey c s key := by
      obtain ⟨j, d, hd, rfl⟩ := hs.1
      by_cases hji : j = i
      · obtain rfl : e' = d := by simpa [hslots, hji] using hd
        exact ⟨i, e, hlive, hkey.symm⟩
      · exact ⟨j, d, by simpa [hslots, hji] using hd, rfl⟩
    refine hs.of_kept hfix hstored hshape fun j d hd => ?_
    by_cases hji : j = i
    · obtain rfl : e = d := by simpa [hji, hlive] using hd
      exact ⟨e', by simp [hslots, hji], hkey⟩
    · exact ⟨d, by simp [hslots, hji, hd], rfl⟩
  | @filled _ _ _ bUnique k i e h =>
    have hnew : key ≠ k := by
      rintro rfl
      exact h.not_shadowed hfix hs
    have hstored : HasKey c s key := by
      obtain ⟨j, d, hd, rfl⟩ := hs.1
      by_cases hji : j = i
      · obtain rfl : e = d := by simpa [h.slots, hji] using hd
        exact absurd h.key_eq hnew
      · exact ⟨j, d, by simpa [h.slots, hji] using hd, rfl⟩
    refine hs.of_kept hfix hstored h.shape fun j d hd => ?_
    have hji : j ≠ i := by
      rintro rfl
      exact h.slot.not_live d hd
    exact ⟨d, by simp [h.slots, hji, hd], rfl⟩
  | @buried k offered _ i e hshape hlive hkey => exact absurd ⟨i, e, hlive, hkey⟩ (hop k offered rfl)

end Shadows

section Runs

variable [DecidableEq K] {l : Ledger K V} {op : Op K V c.type} {out : Result V × ℕ}

/-- The entries of `s` are those of the ledger, whose stale keys alone are shadowed. -/
structure Ledgered (c : Template K) (s : Core K V) (l : Ledger K V) : Prop
    extends Represents c s l.map where
  stale : ∀ key, Shadowed c s key → key ∈ l.stale

theorem Constructed.ledgered (h : Constructed c s) (hfix : c.bFix = false) :
    s.Ledgered c (⟨∅, ∅⟩ : Ledger K V) := by
  obtain ⟨hinv, -, hclean, -⟩ := h.start
  refine { h.represents with stale := ?_ }
  intro key hs
  exact absurd hs (hinv.not_shadowed hclean hfix key)

theorem Ledgered.not_misled (h : s.Ledgered c l) (hnot : c.type ≠ .index) (hok : l.Permits op) :
    ¬ Misled c s op := by
  intro hmisled
  cases op with
  | add bUnique key value =>
    cases bUnique with
    | true => exact hok (h.mem_iff.mpr hmisled)
    | false => exact hok (h.stale key hmisled)
  | addOrUpdate key value offered => exact hok (h.stale key hmisled)
  | tryAdd key value offered => exact hnot offered
  | _ => exact hmisled

/-- One call keeps the ledger. -/
theorem Ledgered.call (h : s.Ledgered c l) (hnot : c.type ≠ .index) (hfix : c.bFix = false)
    (hok : l.Permits op) (hcall : Call c s op out t) :
    (l.spec op).1 = out ∧ t.Ledgered c (l.spec op).2 := by
  obtain ⟨hiff, hnext⟩ := h.toRepresents.call hnot hcall
  have hright : ¬ Astray c s op := (h.astray_iff hfix).not.mpr (h.not_misled hnot hok)
  have ht := hnext hright
  refine ⟨hiff.mpr hright, { ht with stale := ?_ }⟩
  have hinv : t.Inv c := ht.toInv
  obtain ⟨fuel, hstep, -⟩ := hcall
  have htouched := h.toInv.step_touched hstep
  intro key hs
  cases op with
  | remove k offered =>
    by_cases hk : k ∈ l.map
    · have hmem : key ∈ l.map.erase k := ht.mem_iff.mpr hs.1
      simpa [Ledger.spec, hk, Finmap.mem_keys] using hmem
    · have hold := htouched.shadowed hinv hfix (fun k' _ hop hkey => by
        cases hop
        exact hk (h.mem_iff.mpr hkey)) hs
      simpa [Ledger.spec, hk] using h.stale key hold
  | rehash offered =>
    obtain ⟨u, hrehash, hout⟩ := Exec.bind_eq_ok.mp hstep
    obtain ⟨-, rfl⟩ : Result.void = out.1 ∧ u = t := by simpa using hout
    rcases (h.toInv.rehash_refilled offered).value hrehash with hclean | ⟨rfl, hcount⟩
    · exact absurd hs (hinv.not_shadowed hclean hfix key)
    · obtain ⟨i, e, hlive, -⟩ := hs.1
      exact absurd hlive (hinv.not_live_of_count hcount i e)
  | clear size =>
    obtain ⟨u, hclear, hout⟩ := Exec.bind_eq_ok.mp hstep
    obtain ⟨-, rfl⟩ : Result.void = out.1 ∧ u = t := by simpa using hout
    obtain ⟨-, -, hclean, -⟩ := (h.toInv.clear_ensures size).value hclear
    exact absurd hs (hinv.not_shadowed hclean hfix key)
  | _ => exact h.stale key (htouched.shadowed hinv hfix (fun k' _ hop => by cases hop) hs)

/-- A `Map` or `Set` is a finite map for every client that keeps to the
ledger, whatever the hashes of the keys are. -/
theorem disciplined_run_refines (hnot : c.type ≠ .index) (hfix : c.bFix = false)
    (hstart : Constructed c s) {trace : List (Op K V c.type × Result V × ℕ)}
    (hrun : Run (Call c) s trace t)
    (hallowed : Allowed Ledger.spec Ledger.Permits (⟨∅, ∅⟩ : Ledger K V) (trace.map Prod.fst)) :
    (replay Dictionary.spec ∅ (trace.map Prod.fst)).1 = trace.map Prod.snd ∧
      t.Represents c (replay Dictionary.spec ∅ (trace.map Prod.fst)).2 := by
  obtain ⟨houts, hend⟩ := hrun.refines_allowed (R := Ledgered c)
    (fun _ _ _ _ _ hl hok hcall => hl.call hnot hfix hok hcall) (hstart.ledgered hfix) hallowed
  obtain ⟨hsame, hview⟩ := Ledger.replay_map (⟨∅, ∅⟩ : Ledger K V) (trace.map Prod.fst)
  exact ⟨hsame.trans houts, by simpa only [hview] using hend.toRepresents⟩

theorem disciplined_run_refines_constantHash : ∃ (s t : Core ℕ ℕ)
    (trace : List (Op ℕ ℕ .map × Result ℕ × ℕ)),
    Run (Call (constantHash .map .fast false)) s trace t ∧
    trace.map Prod.fst = [.add false 1 10, .add true 2 20, .remove 1, .addOrUpdate 1 11,
      .addOrUpdate 1 12, .contains 2, .clear 0, .add false 2 0] ∧
    (replay Dictionary.spec ∅ (trace.map Prod.fst)).1 = trace.map Prod.snd := by
  have hruns : observe (constantHash .map .fast false) 100 zeroedMemory
      [.add false 1 10, .add true 2 20, .remove 1, .addOrUpdate 1 11, .addOrUpdate 1 12,
        .contains 2, .clear 0, .add false 2 0] =
      .ok [(.bool true, 1), (.bool true, 2), (.bool true, 1), (.bool true, 2), (.bool false, 2),
        (.bool true, 2), (.void, 0), (.bool true, 1)] := by
    decide +kernel
  obtain ⟨s, trace, t, hstart, hrun, hops, -⟩ := observe_run hruns
  refine ⟨s, t, trace, hrun, hops, (disciplined_run_refines (by decide) rfl hstart hrun ?_).1⟩
  rw [hops]
  decide +kernel

end Runs

end Core

end SimdHash
