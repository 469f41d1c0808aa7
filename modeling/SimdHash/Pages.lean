import SimdHash.Core

/-! An `EntryArray` as the table of pages that it is. Its `AdjustSize` takes
over the pages that are there and makes the others, and each of its
allocations can throw. -/

namespace SimdHash

/-- `_pages` and `_size`. A pointer that has not been stored is `none`. -/
structure PageTable (α : Type) where
  pages : ℕ → Option (ℕ → α)
  size : ℕ

namespace PageTable

variable {α : Type}

/-- The `for` loop, up to page `n`, on how many more allocations return and the
pointers in the new table. It throws with the pointers stored so far. A new
page `i` holds `fresh i`. -/
def copyPages (t : PageTable α) (fresh : ℕ → ℕ → α) :
    ℕ → ℕ × (ℕ → Option (ℕ → α)) → Except (ℕ → Option (ℕ → α)) (ℕ × (ℕ → Option (ℕ → α)))
  | 0, state => .ok state
  | i + 1, state => do
    let (allocations, pages) ← t.copyPages fresh i state
    if i < t.size / pageSize then .ok (allocations, Function.update pages i (t.pages i))
    else if allocations = 0 then .error pages
    else .ok (allocations - 1, Function.update pages i (some (fresh i)))

/-- `AdjustSize`, where `allocations` calls of `operator new` return and the
next one throws. -/
def adjustSize (bDebug : Bool) (fresh : ℕ → ℕ → α) (allocations : ℕ) (t : PageTable α) (size : ℕ) :
    Exec (Except (PageTable α) (PageTable α)) := do
  let size := if size % pageSize ≠ 0 then size + (pageSize - size % pageSize) else size
  Exec.assert bDebug (size > t.size)
  if allocations = 0 then .ok (.error t)
  else
    match t.copyPages fresh (size / pageSize) (allocations - 1, fun _ => none) with
    | .error pages => .ok (.error { t with pages })
    | .ok (_, pages) => .ok (.ok { pages, size })

/-- The array that the table stands for. Outside of the pages there is what the memory holds. -/
def toArray (memory : ℕ → α) (t : PageTable α) : EntryArray α where
  size := t.size
  cell index :=
    match t.pages (index / pageSize) with
    | some page => page (index % pageSize)
    | none => memory index

def page (cell : ℕ → α) (i k : ℕ) : α := cell (pageSize * i + k)

def firstPages (cell : ℕ → α) (n i : ℕ) : Option (ℕ → α) := if i < n then some (page cell i) else none

def ofArray (array : EntryArray α) : PageTable α where
  pages := firstPages array.cell (array.size / pageSize)
  size := array.size

section Copying

variable {cell : ℕ → α} {n size : ℕ}

theorem toArray_firstPages (cell : ℕ → α) (n size : ℕ) :
    toArray cell ⟨firstPages cell n, size⟩ = ⟨size, cell⟩ := by
  have hcell (index : ℕ) : (toArray cell ⟨firstPages cell n, size⟩).cell index = cell index := by
    by_cases hlt : index / pageSize < n
    · simp only [toArray, firstPages, if_pos hlt, page, Nat.div_add_mod]
    · simp only [toArray, firstPages, if_neg hlt]
  exact congrArg (Block.mk size) (funext hcell)

theorem toArray_ofArray (array : EntryArray α) : toArray array.cell (ofArray array) = array :=
  toArray_firstPages array.cell _ _

theorem update_firstPages (cell : ℕ → α) (n : ℕ) :
    Function.update (firstPages cell n) n (some (page cell n)) = firstPages cell (n + 1) := by
  funext i
  by_cases hi : i = n
  · subst hi
    rw [Function.update_self, firstPages, if_pos (Nat.lt_succ_self i)]
  · have hiff : i < n ↔ i < n + 1 := by omega
    rw [Function.update_of_ne hi, firstPages, firstPages, if_congr hiff rfl rfl]

/-- Each page that is not there takes one allocation. -/
theorem copyPages_eq (cell : ℕ → α) (size allocations n : ℕ) :
    copyPages ⟨firstPages cell (size / pageSize), size⟩ (page cell) n
        (allocations, firstPages cell 0) =
      if n - size / pageSize ≤ allocations then
        .ok (allocations - (n - size / pageSize), firstPages cell n)
      else .error (firstPages cell (size / pageSize + allocations)) := by
  induction n with
  | zero =>
    rw [Nat.zero_sub, if_pos (Nat.zero_le _), Nat.sub_zero]
    rfl
  | succ n ih =>
    rw [copyPages, ih]
    by_cases hleft : n - size / pageSize ≤ allocations
    · rw [if_pos hleft]
      change (if n < size / pageSize then Except.ok _ else _) = _
      by_cases hold : n < size / pageSize
      · have hpage : (PageTable.mk (firstPages cell (size / pageSize)) size).pages n =
            some (page cell n) := if_pos hold
        have hsub : n + 1 - size / pageSize = n - size / pageSize := by omega
        rw [if_pos hold, hpage, update_firstPages, hsub, if_pos hleft]
      · rw [if_neg hold, update_firstPages]
        by_cases hnone : allocations - (n - size / pageSize) = 0
        · have hn : n = size / pageSize + allocations := by omega
          rw [if_pos hnone, if_neg (by omega), ← hn]
        · have hsub : allocations - (n - size / pageSize) - 1 =
              allocations - (n + 1 - size / pageSize) := by omega
          rw [if_neg hnone, if_pos (by omega), hsub]
    · rw [if_neg hleft, if_neg (by omega)]
      rfl

end Copying

end PageTable

namespace EntryArray

open PageTable

variable {α : Type}

/-- `AdjustSize` on the pages of the array. -/
def adjustSizeOrThrow (bDebug : Bool) (allocations : ℕ) (array : EntryArray α) (size : ℕ) :
    Exec (Except (EntryArray α) (EntryArray α)) := do
  let adjusted ← (ofArray array).adjustSize bDebug (page array.cell) allocations size
  .ok (match adjusted with
    | .error t => .error (t.toArray array.cell)
    | .ok t => .ok (t.toArray array.cell))

/-- The table of pages first, then a page for each that is not there. -/
def allocated (array : EntryArray α) (size : ℕ) : ℕ := 1 + (size / pageSize - array.size / pageSize)

/-- `AdjustSize` throws exactly if it needs more allocations than return, and
leaves the array as it was. -/
theorem adjustSizeOrThrow_eq (bDebug : Bool) (allocations : ℕ) (array : EntryArray α) (size : ℕ) :
    adjustSizeOrThrow bDebug allocations array size =
      (adjustSize bDebug array size >>= fun grown =>
        .ok (if array.allocated grown.size ≤ allocations then .ok grown else .error array)) := by
  have hnone : (fun _ => none) = firstPages array.cell 0 := rfl
  have hsize : (ofArray array).size = array.size := rfl
  simp only [adjustSizeOrThrow, PageTable.adjustSize, adjustSize, hsize]
  generalize (if size % pageSize ≠ 0 then size + (pageSize - size % pageSize) else size) = size
  cases hassert : Exec.assert bDebug (size > array.size) with
  | error e => rfl
  | ok _ =>
    have hallocated : array.allocated size = 1 + (size / pageSize - array.size / pageSize) := rfl
    simp only [Exec.ok_bind]
    by_cases hzero : allocations = 0
    · have hthrow : ¬ array.allocated size ≤ allocations := by omega
      simp only [if_pos hzero, if_neg hthrow, Exec.ok_bind, toArray_ofArray]
    · rw [if_neg hzero, hnone, ofArray, copyPages_eq]
      by_cases henough : size / pageSize - array.size / pageSize ≤ allocations - 1
      · have hreturn : array.allocated size ≤ allocations := by omega
        simp only [if_pos henough, if_pos hreturn, Exec.ok_bind, toArray_firstPages]
      · have hthrow : ¬ array.allocated size ≤ allocations := by omega
        simp only [if_neg henough, if_neg hthrow, Exec.ok_bind, toArray_firstPages]

end EntryArray

end SimdHash
