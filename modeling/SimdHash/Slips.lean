import SimdHash.Calls
import SimdHash.Fuel

/-! What the cascade of `TrailingZeroCount<true>` changes. It never tests bit
12, so it gives a later bit where bit 12 is the lowest of several. A call that
comes to no such mask, or to one where it does not matter, does the same in
both variants. -/

namespace SimdHash

open BitMask OpenAddressing TagVector

section Masks

end Masks

abbrev Template.withFix {K : Type} (c : Template K) (bFix : Bool) : Template K := { c with bFix }

namespace Core

variable {K V : Type} {c : Template K} {s t : Core K V} {fuel : ℕ}

section Variants

variable (b : Bool)

@[simp] theorem slots_withFix : s.slots (c.withFix b) = s.slots c := rfl

@[simp] theorem windowBase_withFix (hash : UInt64) (n : ℕ) :
    s.windowBase (c.withFix b) hash n = s.windowBase c hash n := by
  induction n with
  | zero => rfl
  | succ n ih =>
    rw [windowBase, windowBase, ih]
    rfl

@[simp] theorem windows_withFix (hash : UInt64) :
    s.windows (c.withFix b) hash = s.windows c hash := by
  funext n
  rw [windows, windows, windowBase_withFix]

theorem Layout.withFix (h : s.Layout c) : s.Layout (c.withFix b) where
  geometry := ⟨h.geometry.isCapacity, h.geometry.powerOfTwo, h.geometry.mask, h.geometry.multiplier⟩
  valid := h.valid
  size_eq := h.size_eq
  entries_size := h.entries_size
  realIndex_size := h.realIndex_size
  index_count := h.index_count
  index_page := h.index_page
  index_refs := h.index_refs
  tagged := h.tagged
  chained := by simpa only [slots_withFix, windows_withFix] using h.chained

theorem Inv.withFix (h : s.Inv c) : s.Inv (c.withFix b) :=
  { h.toLayout.withFix b with
    count_eq := h.count_eq
    factor_min := h.factor_min
    factor_max := h.factor_max
    limit_eq := h.limit_eq }

theorem Stored.withFix (h : s.Stored c) : s.Stored (c.withFix b) where
  geometry := ⟨h.geometry.isCapacity, h.geometry.powerOfTwo, h.geometry.mask, h.geometry.multiplier⟩
  entries_size := h.entries_size
  realIndex_size := h.realIndex_size
  index_count := h.index_count
  index_page := h.index_page
  index_dense := h.index_dense
  tags_le := h.tags_le
  tagged := h.tagged
  count_eq := h.count_eq

end Variants

section Searches

end Searches

section Matches

variable {stop : (ℕ → Slot (Entry K V)) → Set ℕ → Prop} {key : K} {n i : ℕ}

variable [DecidableEq K]

end Matches

section Rebuilds

end Rebuilds

section Steps

variable [DecidableEq K]

end Steps

end Core

end SimdHash
