import SimdHash.Calls
import SimdHash.Fuel

/-! `Add<true>` and `Add<false>` on a key that is not stored. -/

namespace SimdHash

open TagVector

namespace Core

variable {K V : Type} {c : Template K} {s t : Core K V} {fuel : ℕ}

variable [DecidableEq K] {key : K}

/-- No live slot of a window shows a key that no live slot holds, so what the
checked loop does there is what the unchecked one does. -/
theorem Layout.probeCheckedWindow_of_absent (h : s.Layout c)
    (habsent : ∀ i e, s.slots c i = .live e → e.key ≠ key) (hfuel : 2 ^ 16 ≤ fuel) (n : ℕ) :
    s.probeCheckedWindow c fuel key (s.windowBase c (c.hasher key) n) =
      s.probeUniqueWindow c (s.windowBase c (c.hasher key) n) := by
  have hwalk : Exec.Ensures (s.findMatch c fuel key _ _) _ _ := h.match_ensures key n
  obtain ⟨r, hmatch, hr⟩ := hwalk.returns fun e he => by
    have := he.2
    omega
  have hnone : r = none := by
    cases r with
    | none => rfl
    | some i =>
      obtain ⟨-, i, -, e, hlive, hkey, -⟩ := hr
      exact absurd hkey (habsent i e hlive)
  have hb := h.windowBase_lt (c.hasher key) n
  rw [probeCheckedWindow, probeUniqueWindow, TagArray.load_of_lt hb, Exec.ok_bind, Exec.ok_bind,
    hmatch, hnone]
  rfl

theorem Layout.probeChecked_of_absent (h : s.Layout c)
    (habsent : ∀ i e, s.slots c i = .live e → e.key ≠ key) (hfuel : 2 ^ 16 ≤ fuel) :
    s.probeChecked c fuel key = s.probeUnique c fuel key :=
  probe_congr rfl (fun n _ => h.probeCheckedWindow_of_absent habsent hfuel n) fuel

theorem Layout.add_of_absent (h : s.Layout c)
    (habsent : ∀ i e, s.slots c i = .live e → e.key ≠ key) (hfuel : 2 ^ 16 ≤ fuel)
    (bUpdate : Bool) (value : V) :
    s.add c fuel true bUpdate key value = s.add c fuel false bUpdate key value := by
  simp only [add, if_true, Bool.false_eq_true, if_false, h.probeChecked_of_absent habsent hfuel]

/-- On a key that is not stored the unchecked insertion returns exactly if the
checked one does, and then both return true and leave the same container. -/
theorem unchecked_add_agrees (hs : Reachable c s)
    (habsent : ∀ i, i < s.capacity → s.tags.cell i < 0x80 →
      (s.entries.cell (s.ref c i)).key ≠ key) (value : V) :
    (∀ fuel, 2 ^ 16 ≤ fuel →
      s.add c fuel true false key value = s.add c fuel false false key value) ∧
    (∀ r, (∃ fuel, s.add c fuel true false key value = .ok r) ↔
      ∃ fuel, s.add c fuel false false key value = .ok r) ∧
    ∀ fuel ret index t, s.add c fuel true false key value = .ok ((ret, index), t) → ret = true := by
  have h := hs.inv
  have habsent' : ∀ i e, s.slots c i = .live e → e.key ≠ key := by
    intro i e hlive
    obtain ⟨hi, htag, rfl⟩ := slots_eq_live.mp hlive
    exact habsent i (h.size_eq ▸ hi) htag
  have hsame (fuel : ℕ) (hfuel : 2 ^ 16 ≤ fuel) := h.add_of_absent habsent' hfuel false value
  have hmore (fuel : ℕ) (bUnique : Bool) {r : (Bool × ℕ) × Core K V}
      (hr : s.add c fuel bUnique false key value = .ok r) :
      s.add c (max fuel (2 ^ 16)) bUnique false key value = .ok r :=
    (add_approx (le_max_left _ _) bUnique false key value).value hr
  refine ⟨hsame, fun r => ⟨?_, ?_⟩, ?_⟩
  · intro hrun
    obtain ⟨fuel, hrun⟩ := hrun
    exact ⟨_, (hsame _ (le_max_right _ _)).symm.trans (hmore fuel true hrun)⟩
  · intro hrun
    obtain ⟨fuel, hrun⟩ := hrun
    exact ⟨_, (hsame _ (le_max_right _ _)).trans (hmore fuel false hrun)⟩
  · intro fuel ret index t hrun
    have hadded : Added c s true false key value ((ret, index), t) := h.add_ensures.value hrun
    cases hadded with
    | inserted hslot ht => rfl
    | found hchecked => cases hchecked

theorem unchecked_add_agrees_constantHash : ∃ s : Core ℕ ℕ,
    Reachable (constantHash .map .fast true) s ∧ s.tags.cell 0 = tombstone ∧
    s.add (constantHash .map .fast true) 65536 true false 1 20 =
      s.add (constantHash .map .fast true) 65536 false false 1 20 := by
  have hruns : ((after (constantHash .map .fast true) 100 zeroedMemory
      [.add false 1 10, .remove 1]) >>= fun s => .ok (s.count, s.tags.cell 0)) =
      .ok (0, tombstone) := by
    decide +kernel
  obtain ⟨s, hafter, hs⟩ := Exec.bind_eq_ok.mp hruns
  simp only [Except.ok.injEq, Prod.mk.injEq] at hs
  have hreach : Reachable (constantHash .map .fast true) s := reachable_of_after hafter
  refine ⟨s, hreach, hs.2, (unchecked_add_agrees hreach (fun i hi htag => ?_) 20).1 65536 le_rfl⟩
  have hdead := hreach.inv.not_live_of_count hs.1 i (s.record (constantHash .map .fast true) i)
  exact absurd (slots_eq_live.mpr ⟨hreach.inv.size_eq.symm ▸ hi, htag, rfl⟩) hdead

end Core

end SimdHash
