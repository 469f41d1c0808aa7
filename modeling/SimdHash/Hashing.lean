import Mathlib

/-! The hash functions that come with the library: an exclusive or and a
multiplication by an odd constant. Such a hash maps the low bits of a key one
to one to the low bits of the hash. -/

namespace OddMultiplier

theorem mul_mod_two_pow_iff {k : ℕ} (hk : Odd k) (m a b : ℕ) :
    a * k % 2 ^ m = b * k % 2 ^ m ↔ a % 2 ^ m = b % 2 ^ m := by
  have hcoprime : Nat.gcd (2 ^ m) k = 1 := (Nat.coprime_two_left.mpr hk).pow_left m
  constructor
  · exact Nat.ModEq.cancel_right_of_coprime hcoprime
  · exact Nat.ModEq.mul_right k

theorem xor_mod_two_pow_iff (k m a b : ℕ) :
    (a ^^^ k) % 2 ^ m = (b ^^^ k) % 2 ^ m ↔ a % 2 ^ m = b % 2 ^ m := by
  rw [Nat.xor_mod_two_pow, Nat.xor_mod_two_pow]
  exact Nat.xor_left_inj

end OddMultiplier

namespace SimdHash

inductive HashType
  | default
  | fib
  | absl
  deriving DecidableEq, Repr

namespace Hash

def fib : UInt64 := 11400714819323198485

def kMul : UInt64 := 0xdcb22ca68cb134ed

def hash (type : HashType) (key : UInt64) : UInt64 :=
  if type = .absl then (key ^^^ kMul) * kMul else (key ^^^ fib) * fib

/-- `operator()` for the integers and pointers, of which `bits` are the 64 bits
that the cast makes. -/
def ofBits {K : Type} (type : HashType) (bits : K → UInt64) (key : K) : UInt64 :=
  hash type (bits key)

theorem mix_mod_two_pow_iff {k : UInt64} (hk : Odd k.toNat) {m : ℕ} (hm : m ≤ 64) (a b : UInt64) :
    ((a ^^^ k) * k).toNat % 2 ^ m = ((b ^^^ k) * k).toNat % 2 ^ m ↔
      a.toNat % 2 ^ m = b.toNat % 2 ^ m := by
  have hdvd : 2 ^ m ∣ 2 ^ 64 := Nat.pow_dvd_pow 2 hm
  rw [UInt64.toNat_mul, UInt64.toNat_mul, Nat.mod_mod_of_dvd _ hdvd, Nat.mod_mod_of_dvd _ hdvd,
    OddMultiplier.mul_mod_two_pow_iff hk, UInt64.toNat_xor, UInt64.toNat_xor,
    OddMultiplier.xor_mod_two_pow_iff]

/-- Two hashes agree in their low bits exactly if the keys do. -/
theorem hash_mod_two_pow_iff (type : HashType) {m : ℕ} (hm : m ≤ 64) (a b : UInt64) :
    (hash type a).toNat % 2 ^ m = (hash type b).toNat % 2 ^ m ↔
      a.toNat % 2 ^ m = b.toNat % 2 ^ m := by
  have hkMul : Odd kMul.toNat := by decide
  have hfib : Odd fib.toNat := by decide
  by_cases ht : type = .absl
  · simp only [hash, if_pos ht]
    exact mix_mod_two_pow_iff hkMul hm a b
  · simp only [hash, if_neg ht]
    exact mix_mod_two_pow_iff hfib hm a b

end Hash

end SimdHash
