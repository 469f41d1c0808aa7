import SimdHash.Exec
import SimdHash.BitMask

/-! Tag bytes, the masks that compare a vector of them, and the array that
holds them with its sentinel bytes. -/

namespace SimdHash

open BitMask

def resetLowestSetBit (mask : ℕ) : ℕ := mask &&& (mask - 1)

/-- The bit tests of the fixed variant, each with what it returns. The twelfth
bit is never tested: `0x0800` stands in its place a second time. -/
def cascade : List (ℕ × ℕ) :=
  [(0x0001, 0), (0x0002, 1), (0x0004, 2), (0x0008, 3),
    (0x0010, 4), (0x0020, 5), (0x0040, 6), (0x0080, 7),
    (0x0100, 8), (0x0200, 9), (0x0400, 10), (0x0800, 11),
    (0x0800, 12), (0x2000, 13), (0x4000, 14), (0x8000, 15)]

/-- `TrailingZeroCount<bFix>` on a `bits`-bit mask. -/
def trailingZeroCount (bFix : Bool) (bits mask : ℕ) : ℕ :=
  if bFix ∧ bits = 32 then
    match cascade.find? fun test => mask &&& test.1 ≠ 0 with
    | some test => test.2
    | none => tzcnt bits mask
  else tzcnt bits mask

/-- The 7 most significant bits of the hash. -/
def hashToTag (hash : UInt64) : UInt8 := (hash >>> 57).toUInt8

namespace TagVector

def empty : UInt8 := 0x80
def tombstone : UInt8 := 0x81
def forbidden : UInt8 := 0x82
def zero : UInt8 := 0x00

def size : ℕ := 16

def getCmpMask (source : List UInt8) (target : UInt8) : ℕ :=
  movemask (source.map (target == ·))

def getEmptyMask (source : List UInt8) : ℕ := movemask (source.map (empty == ·))

def getEmptyOrTomeStoneMask (source : List UInt8) : ℕ :=
  movemask (source.map fun tag => empty == forbidden &&& tag)

def getNonEmptyMask (source : List UInt8) : ℕ :=
  movemask (source.map fun tag => zero == empty &&& tag)

end TagVector

/-- `size` tags, followed in memory by `TagVector.size` sentinel bytes. -/
abbrev TagArray := Block UInt8

namespace TagArray

def clear (tags : TagArray) : TagArray := { tags with size := 0 }

/-- A vector load. It has to start inside the table; it may run on into the sentinels. -/
def load (tags : TagArray) (base : ℕ) : Exec (List UInt8) :=
  if base < tags.size then .ok ((List.range TagVector.size).map fun o => tags.cell (base + o))
  else .error .outOfBounds

/-- Every tag of the table `EMPTY`, every sentinel `FORBIDDEN`. -/
def fill (tags : TagArray) : TagArray where
  size := tags.size
  cell i :=
    if i < tags.size then TagVector.empty
    else if i < tags.size + TagVector.size then TagVector.forbidden
    else tags.cell i

/-- With no table allocated the store of the sentinels goes through a null pointer. -/
def init (bDebug : Bool) (tags : TagArray) : Exec TagArray := do
  Exec.assert bDebug (tags.size % TagVector.size = 0)
  if tags.size = 0 then .error .outOfBounds else .ok tags.fill

def adjustSize (bDebug : Bool) (tags : TagArray) (size : ℕ) : Exec TagArray := do
  Exec.assert bDebug (size > tags.size)
  .ok { tags with size }

end TagArray

section Tags

open TagVector

theorem forall_tag {P : UInt8 → Prop} (h : ∀ b : BitVec 8, P ⟨b⟩) (tag : UInt8) : P tag :=
  h tag.toBitVec

theorem land_empty_eq_zero (tag : UInt8) : tag &&& empty = 0 ↔ tag < 0x80 :=
  forall_tag (P := fun tag => tag &&& empty = 0 ↔ tag < 0x80) (by decide +kernel) tag

theorem empty_eq_forbidden_land (tag : UInt8) (h : tag < 0x80 ∨ tag = empty ∨ tag = tombstone) :
    empty = forbidden &&& tag ↔ ¬ tag < 0x80 :=
  forall_tag (P := fun tag => tag < 0x80 ∨ tag = empty ∨ tag = tombstone →
    (empty = forbidden &&& tag ↔ ¬ tag < 0x80)) (by decide +kernel) tag h

theorem hashToTag_lt (hash : UInt64) : hashToTag hash < 0x80 := by
  have hn := hash.toNat_lt
  have hs : (hash >>> 57).toNat = hash.toNat / 2 ^ 57 := by
    rw [UInt64.toNat_shiftRight, Nat.shiftRight_eq_div_pow]
    rfl
  rw [UInt8.lt_iff_toNat_lt, hashToTag, UInt64.toNat_toUInt8, hs]
  exact (Nat.mod_le _ _).trans_lt (Nat.div_lt_of_lt_mul (by simpa using hn))

end Tags

section TrailingZeros

theorem cascade_eq :
    cascade = (List.range 16).map fun i => (2 ^ (if i = 12 then 11 else i), i) := by
  decide

theorem find_cascade (mask : ℕ) :
    cascade.find? (fun test => mask &&& test.1 ≠ 0) =
      ((List.range 16).find? fun i => mask.testBit (if i = 12 then 11 else i)).map
        fun i => (2 ^ (if i = 12 then 11 else i), i) := by
  have htest (k : ℕ) : decide (mask &&& 2 ^ k ≠ 0) = mask.testBit k := by
    rw [Nat.and_two_pow]
    cases mask.testBit k <;> simp
  rw [cascade_eq, List.find?_map]
  congr 2
  funext i
  exact htest _

/-- The set bit that the cascade never gives: bit 12, where a higher one is set. -/
def Passes (bFix : Bool) (mask i : ℕ) : Prop :=
  bFix = true ∧ i = 12 ∧ ∃ j > 12, mask.testBit j = true

/-- `TrailingZeroCount` gives the lowest set bit but the one it passes over. -/
theorem trailingZeroCount_least (bFix : Bool) {mask : ℕ} (h : mask ≠ 0) (hm : mask < 2 ^ 16) :
    mask.testBit (trailingZeroCount bFix 32 mask) = true ∧
    ¬ Passes bFix mask (trailingZeroCount bFix 32 mask) ∧
    ∀ i < trailingZeroCount bFix 32 mask, mask.testBit i = true → Passes bFix mask i := by
  have hlow := tzcnt_isLowest h (hm.trans (by decide : 2 ^ 16 < 2 ^ 32))
  cases bFix with
  | false =>
    refine ⟨hlow.1, by simp [Passes], fun i hi hbit => ?_⟩
    exact absurd ((hlow.2 i hi).symm.trans hbit) (by simp)
  | true =>
    simp only [trailingZeroCount, and_self, if_true, find_cascade]
    cases hf : (List.range 16).find? fun i => mask.testBit (if i = 12 then 11 else i) with
    | none =>
      have hnone := List.find?_eq_none.mp hf
      have hbit (i : ℕ) (hi : mask.testBit i = true) : i = 12 := by
        by_contra hne
        have := hnone i (List.mem_range.mpr (testBit_lt hm hi))
        simp [hne, hi] at this
      refine ⟨hlow.1, ?_, fun i hi hset => ?_⟩
      · intro hpass
        obtain ⟨-, -, j, hj, hset⟩ := hpass
        exact absurd (hbit j hset) hj.ne'
      · exact absurd ((hlow.2 i hi).symm.trans hset) (by simp)
    | some i =>
      obtain ⟨hi, -, hbelow⟩ := List.find?_range_eq_some.mp hf
      have hne : i ≠ 12 := by
        rintro rfl
        have := hbelow 11 (by omega)
        simp_all
      rw [if_neg hne] at hi
      refine ⟨hi, fun hpass => hne hpass.2.1, fun j (hj : j < i) hset => ?_⟩
      obtain rfl : j = 12 := by
        by_contra h12
        have := hbelow j hj
        simp [h12, hset] at this
      exact ⟨rfl, rfl, i, hj, hi⟩

theorem trailingZeroCount_eq (bFix : Bool) {mask i : ℕ} (hm : mask < 2 ^ 16)
    (h : IsLowest mask i) (hpass : ¬ Passes bFix mask i) : trailingZeroCount bFix 32 mask = i := by
  obtain ⟨hset, -, hleast⟩ := trailingZeroCount_least bFix (ne_zero_iff.mpr ⟨i, h.1⟩) hm
  refine le_antisymm (not_lt.mp fun hlt => hpass (hleast i hlt h.1)) (not_lt.mp fun hlt => ?_)
  rw [h.2 _ hlt] at hset
  cases hset

theorem trailingZeroCount_zero (bFix : Bool) {mask : ℕ} (h : mask.testBit 0 = true)
    (hm : mask < 2 ^ 16) : trailingZeroCount bFix 32 mask = 0 :=
  trailingZeroCount_eq bFix hm ⟨h, by simp⟩ fun hpass => absurd hpass.2.1 (by decide)

end TrailingZeros

end SimdHash
