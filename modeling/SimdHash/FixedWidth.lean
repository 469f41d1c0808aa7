import Mathlib

/-! Values kept in memory or in a file as a fixed number of bytes each, and
lists of them packed one after the other. The encoding of words is the
little-endian one. -/

/-- An encoding of every value in `width` bytes. -/
structure FixedWidth (α : Type) where
  width : ℕ
  encode : α → List UInt8
  decode : List UInt8 → α
  length_encode : ∀ a, (encode a).length = width
  decode_encode : ∀ a, decode (encode a) = a

namespace FixedWidth

section LittleEndian

def littleEndian : ℕ → ℕ → List UInt8
  | 0, _ => []
  | width + 1, n => UInt8.ofNat n :: littleEndian width (n / 256)

def value : List UInt8 → ℕ
  | [] => 0
  | b :: bytes => b.toNat + 256 * value bytes

@[simp] theorem length_littleEndian (width n : ℕ) : (littleEndian width n).length = width := by
  induction width generalizing n with
  | zero => rfl
  | succ width ih => simp [littleEndian, ih]

theorem value_littleEndian {width n : ℕ} (h : n < 256 ^ width) :
    value (littleEndian width n) = n := by
  induction width generalizing n with
  | zero =>
    rw [pow_zero, Nat.lt_one_iff] at h
    simp [littleEndian, value, h]
  | succ width ih =>
    have hdiv : n / 256 < 256 ^ width := by
      rw [Nat.div_lt_iff_lt_mul (by decide), ← pow_succ]
      exact h
    have hlow : (UInt8.ofNat n).toNat = n % 256 := UInt8.toNat_ofNat'
    rw [littleEndian, value, ih hdiv, hlow]
    omega

/-- 64-bit words, least significant byte first. -/
def word : FixedWidth UInt64 where
  width := 8
  encode x := littleEndian 8 x.toNat
  decode bytes := UInt64.ofNat (value bytes)
  length_encode x := length_littleEndian 8 x.toNat
  decode_encode x := by
    rw [value_littleEndian x.toNat_lt]
    exact UInt64.ofNat_toNat

end LittleEndian

section Packed

variable {α : Type} (c : FixedWidth α)

def encodeAll (l : List α) : List UInt8 := l.flatMap c.encode

/-- The `j`-th of the values packed in `bytes`. -/
def valueAt (bytes : List UInt8) (j : ℕ) : α :=
  c.decode ((bytes.drop (c.width * j)).take c.width)

@[simp] theorem encodeAll_nil : c.encodeAll [] = [] := rfl

@[simp] theorem encodeAll_cons (a : α) (l : List α) :
    c.encodeAll (a :: l) = c.encode a ++ c.encodeAll l := List.flatMap_cons

@[simp] theorem encodeAll_append (l m : List α) :
    c.encodeAll (l ++ m) = c.encodeAll l ++ c.encodeAll m := List.flatMap_append

@[simp] theorem length_encodeAll (l : List α) : (c.encodeAll l).length = c.width * l.length := by
  induction l with
  | nil => rfl
  | cons a l ih =>
    rw [encodeAll_cons, List.length_append, c.length_encode, ih, List.length_cons]
    ring

theorem take_encodeAll (l : List α) (n : ℕ) :
    (c.encodeAll l).take (c.width * n) = c.encodeAll (l.take n) := by
  induction l generalizing n with
  | nil => simp
  | cons a l ih =>
    cases n with
    | zero => simp
    | succ n =>
      have hlen : (c.encode a).length = c.width := c.length_encode a
      rw [encodeAll_cons, show c.width * (n + 1) = (c.encode a).length + c.width * n by
        rw [hlen]; ring, List.take_length_add_append, ih, List.take_succ_cons, encodeAll_cons]

theorem drop_encodeAll (l : List α) (n : ℕ) :
    (c.encodeAll l).drop (c.width * n) = c.encodeAll (l.drop n) := by
  induction l generalizing n with
  | nil => simp
  | cons a l ih =>
    cases n with
    | zero => simp
    | succ n =>
      have hlen : (c.encode a).length = c.width := c.length_encode a
      rw [encodeAll_cons, show c.width * (n + 1) = (c.encode a).length + c.width * n by
        rw [hlen]; ring, List.drop_length_add_append, ih, List.drop_succ_cons]

theorem valueAt_encodeAll {l : List α} {j : ℕ} (h : j < l.length) :
    c.valueAt (c.encodeAll l) j = l[j] := by
  have hfirst := c.take_encodeAll (l.drop j) 1
  rw [mul_one, List.take_one_drop_eq_of_lt_length h, encodeAll_cons, encodeAll_nil,
    List.append_nil] at hfirst
  rw [valueAt, drop_encodeAll, hfirst, c.decode_encode]
  rfl

theorem map_valueAt_encodeAll (l : List α) :
    (List.range l.length).map (c.valueAt (c.encodeAll l)) = l := by
  apply List.ext_getElem
  · simp
  · intro j hj hj'
    rw [List.getElem_map, List.getElem_range, c.valueAt_encodeAll hj']

theorem valueAt_take {bytes : List UInt8} {j n : ℕ} (h : j < n) :
    c.valueAt (bytes.take (c.width * n)) j = c.valueAt bytes j := by
  have hle : c.width * j + c.width ≤ c.width * n := by
    rw [← Nat.mul_succ]
    exact Nat.mul_le_mul_left _ h
  rw [valueAt, valueAt, List.drop_take, List.take_take, min_eq_left (by omega)]

theorem valueAt_drop (bytes : List UInt8) (i j : ℕ) :
    c.valueAt (bytes.drop (c.width * i)) j = c.valueAt bytes (i + j) := by
  rw [valueAt, valueAt, List.drop_drop, Nat.mul_add]

end Packed

end FixedWidth
