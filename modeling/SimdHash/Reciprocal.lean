import Mathlib

/-! Reduction modulo `d` by one truncated and one high multiplication with
the rounded-up reciprocal of `d`, in words of `w` bits. -/

namespace Reciprocal

def reciprocal (w d : ℕ) : ℕ := (2 ^ w - 1) / d + 1

/-- The high half of the product of the low half of `reciprocal * t` with `d`. -/
def reduce (w d t : ℕ) : ℕ := reciprocal w d * t % 2 ^ w * d / 2 ^ w

theorem reduce_lt {d : ℕ} (hd : 0 < d) (w t : ℕ) : reduce w d t < d := by
  have hlt : reciprocal w d * t % 2 ^ w < 2 ^ w := Nat.mod_lt _ (by positivity)
  exact Nat.div_lt_of_lt_mul ((Nat.mul_lt_mul_right hd).mpr hlt)

theorem reciprocal_mul {d : ℕ} (hd : 0 < d) (w : ℕ) :
    ∃ e < d, reciprocal w d * d = 2 ^ w + e := by
  have hpos : 0 < 2 ^ w := by positivity
  have hdiv := Nat.div_add_mod (2 ^ w - 1) d
  have hmod := Nat.mod_lt (2 ^ w - 1) hd
  refine ⟨d - 1 - (2 ^ w - 1) % d, by omega, ?_⟩
  rw [reciprocal, add_mul, mul_comm _ d]
  omega

theorem reduce_eq_mod {w d t : ℕ} (hd : 0 < d) (h : (t + d) * d ≤ 2 ^ w) :
    reduce w d t = t % d := by
  obtain ⟨e, he, hM⟩ := reciprocal_mul hd w
  set M := reciprocal w d with hMdef
  set q := t / d
  set r := t % d
  have ht : d * q + r = t := Nat.div_add_mod t d
  have hr : r < d := Nat.mod_lt t hd
  have hsplit : M * t = q * e + M * r + 2 ^ w * q := by
    calc M * t = M * d * q + M * r := by rw [← ht]; ring
      _ = q * e + M * r + 2 ^ w * q := by rw [hM]; ring
  -- the excess, summed over the quotient, does not carry out of the low half
  have hexcess : (q + 1) * e < M := by
    apply Nat.lt_of_mul_lt_mul_right (a := d)
    calc (q + 1) * e * d = (d * q + d) * e := by ring
      _ ≤ (t + d) * e := Nat.mul_le_mul_right e (by omega)
      _ ≤ (t + d) * d - (t + d) := by
        rw [← Nat.mul_sub_one]
        exact Nat.mul_le_mul_left _ (by omega)
      _ < M * d := by
        have : 0 < (t + d) * d := by positivity
        omega
  have hlow : q * e + M * r < 2 ^ w := by
    have hMr : M * r + M ≤ M * d := by
      rw [← Nat.mul_succ]
      exact Nat.mul_le_mul_left M hr
    rw [add_mul, one_mul] at hexcess
    omega
  have hte : t * e < 2 ^ w := by
    calc t * e ≤ t * d := Nat.mul_le_mul_left t he.le
      _ < (t + d) * d := Nat.mul_lt_mul_of_pos_right (by omega) hd
      _ ≤ 2 ^ w := h
  rw [reduce, ← hMdef, hsplit, Nat.add_mul_mod_self_left, Nat.mod_eq_of_lt hlow]
  have hprod : (q * e + M * r) * d = t * e + 2 ^ w * r := by
    calc (q * e + M * r) * d = d * q * e + M * d * r := by ring
      _ = (d * q + r) * e + 2 ^ w * r := by rw [hM]; ring
      _ = t * e + 2 ^ w * r := by rw [ht]
  rw [hprod, Nat.add_mul_div_left _ _ (by positivity), Nat.div_eq_of_lt hte, zero_add]

/-- For a power of two the reciprocal is exact, whatever is reduced. -/
theorem reduce_two_pow {w k : ℕ} (hk : k ≤ w) (t : ℕ) : reduce w (2 ^ k) t = t % 2 ^ k := by
  have hw : 2 ^ w = 2 ^ (w - k) * 2 ^ k := by rw [← pow_add, Nat.sub_add_cancel hk]
  have hM : reciprocal w (2 ^ k) = 2 ^ (w - k) := by
    obtain ⟨e, he, hM⟩ := reciprocal_mul (show 0 < 2 ^ k by positivity) w
    have hdvd : 2 ^ k ∣ e := by
      rw [← Nat.dvd_add_right (Dvd.intro_left _ hw.symm), ← hM]
      exact Nat.dvd_mul_left _ _
    rw [Nat.eq_zero_of_dvd_of_lt hdvd he, add_zero, hw] at hM
    exact Nat.eq_of_mul_eq_mul_right (by positivity) hM
  rw [reduce, hM, hw, Nat.mul_mod_mul_left, mul_right_comm,
    Nat.mul_div_cancel_left _ (by positivity)]

end Reciprocal
