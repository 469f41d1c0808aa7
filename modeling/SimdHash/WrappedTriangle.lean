import Mathlib

/-! Sums of a step that grows by one and wraps to zero every sixteen times.
Modulo eight the first sixteen sums take every value, and each further cycle
adds 120, which settles which residues the sums take modulo a multiple of eight. -/

namespace WrappedTriangle

/-- The distance covered by the first `n` steps. -/
def drift : ℕ → ℕ
  | 0 => 0
  | n + 1 => drift n + (n + 1) % 16

theorem drift_add_cycle (n : ℕ) : drift (n + 16) = drift n + 120 := by
  induction n with
  | zero => rfl
  | succ n ih =>
    have hl : drift (n + 16 + 1) = drift (n + 16) + (n + 16 + 1) % 16 := rfl
    have hr : drift (n + 1) = drift n + (n + 1) % 16 := rfl
    rw [show n + 1 + 16 = n + 16 + 1 by ring, hl, hr, ih]
    omega

theorem drift_cycle (q r : ℕ) : drift (16 * q + r) = 120 * q + drift r := by
  induction q with
  | zero => simp
  | succ q ih =>
    rw [show 16 * (q + 1) + r = 16 * q + r + 16 by ring, drift_add_cycle, ih]
    ring

theorem exists_drift_mod_eight (j : ℕ) : ∃ r < 16, drift r % 8 = j % 8 := by
  have hall : ∀ j < 8, ∃ r < 16, drift r % 8 = j := by decide
  exact hall (j % 8) (Nat.mod_lt _ (by decide))

theorem exists_mul_mod {a n : ℕ} (hn : 0 < n) (h : a.Coprime n) (b : ℕ) :
    ∃ q < n, a * q ≡ b [MOD n] := by
  have : NeZero n := ⟨hn.ne'⟩
  refine ⟨((a : ZMod n)⁻¹ * b).val, ZMod.val_lt _, ?_⟩
  rw [← ZMod.natCast_eq_natCast_iff, Nat.cast_mul, ZMod.natCast_zmod_val, ← mul_assoc,
    ZMod.coe_mul_inv_eq_one a h, one_mul]

/-- The sums take every residue modulo `8 * n` when `n` is prime to 15, and
do so within two rounds of the residues. -/
theorem exists_drift {n : ℕ} (hn : 0 < n) (h : Nat.Coprime 15 n) (j : ℕ) :
    ∃ m < 16 * n, drift m ≡ j [MOD 8 * n] := by
  obtain ⟨r, hr, hr8⟩ := exists_drift_mod_eight j
  -- what the cycles have to add is a multiple of eight, up to the modulus
  obtain ⟨a, ha⟩ : ∃ a, 8 * a + drift r ≡ j [MOD 8 * n] := by
    have hle : drift r ≤ drift r * (8 * n) := Nat.le_mul_of_pos_right _ (by positivity)
    have hdvd : 8 ∣ j + drift r * (8 * n) - drift r := by
      rw [mul_left_comm]
      omega
    refine ⟨(j + drift r * (8 * n) - drift r) / 8, ?_⟩
    rw [Nat.mul_div_cancel' hdvd, Nat.sub_add_cancel (by omega)]
    simp [Nat.ModEq]
  obtain ⟨q, hq, hqa⟩ := exists_mul_mod hn h a
  refine ⟨16 * q + r, by omega, ?_⟩
  rw [drift_cycle]
  have h8 : 8 * (15 * q) ≡ 8 * a [MOD 8 * n] := hqa.mul_left' 8
  calc 120 * q + drift r = 8 * (15 * q) + drift r := by ring
    _ ≡ 8 * a + drift r [MOD 8 * n] := h8.add_right _
    _ ≡ j [MOD 8 * n] := ha

theorem drift_mod_of_dvd {d : ℕ} (h : d ∣ 120) (m : ℕ) : drift m % d = drift (m % 16) % d := by
  conv_lhs => rw [← Nat.div_add_mod m 16, drift_cycle]
  rw [Nat.add_mod, Nat.mod_eq_zero_of_dvd (h.mul_right _), zero_add, Nat.mod_mod]

/-- So below a multiple of such a divisor at most sixteen blocks out of each
`d` of them are at one of the sums. -/
theorem card_le_of_drift {d m : ℕ} (hd : d ∣ 120) {S : Finset ℕ}
    (hS : ∀ i ∈ S, i < 16 * (d * m) ∧ ∃ n, i / 16 % d = drift n % d) : S.card ≤ 256 * m := by
  have hpos : 0 < d := Nat.pos_of_dvd_of_pos hd (by decide)
  have hsub : S ⊆ (Finset.range 16 ×ˢ Finset.range m ×ˢ Finset.range 16).image
      fun p => 16 * (d * p.2.1 + drift p.1 % d) + p.2.2 := by
    intro i hi
    obtain ⟨hlt, n, hn⟩ := hS i hi
    have hblock : i / 16 / d < m := by
      rw [Nat.div_lt_iff_lt_mul hpos, mul_comm]
      omega
    have hi : 16 * (d * (i / 16 / d) + drift (n % 16) % d) + i % 16 = i := by
      rw [← drift_mod_of_dvd hd n, ← hn, Nat.div_add_mod, Nat.div_add_mod]
    refine Finset.mem_image.mpr ⟨(n % 16, i / 16 / d, i % 16), ?_, hi⟩
    simp only [Finset.mem_product, Finset.mem_range]
    exact ⟨Nat.mod_lt _ (by decide), hblock, Nat.mod_lt _ (by decide)⟩
  calc S.card ≤ (Finset.range 16 ×ˢ Finset.range m ×ˢ Finset.range 16).card :=
        (Finset.card_le_card hsub).trans Finset.card_image_le
    _ = 256 * m := by
        simp only [Finset.card_product, Finset.card_range]
        ring

end WrappedTriangle
