import SimdHash.TagVector

/-! Capacity selection: the ladder of table sizes of each mode, the load
factors, and the reduction of a hash or a stepped index to a table index. -/

namespace SimdHash

inductive Mode
  | fast
  | fastDivMod
  | saveMemoryFast
  | saveMemoryOpt
  | saveMemoryMax
  | resizeOnlyEmpty
  deriving DecidableEq, Repr

def Mode.toNat : Mode → ℕ
  | fast => 0
  | fastDivMod => 1
  | saveMemoryFast => 2
  | saveMemoryOpt => 4
  | saveMemoryMax => 8
  | resizeOnlyEmpty => 16

def minSize : ℕ := 4096
def maxSize : ℕ := 0x80000000

/-- `EntryArray::PageSize`. -/
def pageSize : ℕ := 4096

/-- The `float` constants 0.75, 0.9766 and 0.99, each the rational that its
24-bit significand denotes. -/
def LoadFactor.min : ℚ := 12582912 / 16777216
def LoadFactor.def : ℚ := 16384629 / 16777216
def LoadFactor.max : ℚ := 16609444 / 16777216

inductive FloatValue
  | finite (value : ℚ)
  | infinite (negative : Bool)
  | nan
  deriving DecidableEq, Repr

/-- The comparison with both bounds, which only a finite value passes. -/
def FloatValue.accepted? : FloatValue → Option ℚ
  | finite value => if LoadFactor.min ≤ value ∧ value ≤ LoadFactor.max then some value else none
  | infinite _ => none
  | nan => none

def roundUpToPowerOf2 (value : ℕ) : ℕ :=
  if value = 0 ∨ resetLowestSetBit value = 0 then value
  else
    let value := value - 1
    let value := value ||| value >>> 1
    let value := value ||| value >>> 2
    let value := value ||| value >>> 4
    let value := value ||| value >>> 8
    let value := value ||| value >>> 16
    (value + 1) % 2 ^ 32

/-- The number of subdivisions that the modes above `FastDivMod` make of the
interval from `ph / 2` to `ph`. -/
def subdivisions (mode : Mode) (ph : ℕ) : ℕ :=
  if mode = .saveMemoryMax then
    if ph ≤ 64 * 1024 * 1024 then Mode.saveMemoryOpt.toNat
    else mode.toNat * (ph / 1024 / 1024) / 128
  else mode.toNat

def subdivision (ph pi i : ℕ) : ℕ :=
  (ph / 2 * i / pi + ph / 2) / pageSize * pageSize

/-- The branch of `AdjustCapacity` for `ResizeOnlyEmpty`, with the `float`
division read as the exact one. -/
def reservedCapacity (size : ℕ) : ℕ :=
  let newSize := ⌊(size : ℚ) / LoadFactor.max⌋₊
  if newSize ≥ maxSize then maxSize
  else
    let newSize := if newSize % pageSize ≠ 0 then (newSize / pageSize + 1) * pageSize else newSize
    if newSize ≥ maxSize then maxSize else newSize

/-- The branch for the modes above `FastDivMod`. -/
def subdividedCapacity (mode : Mode) (size : ℕ) : ℕ :=
  let ph := roundUpToPowerOf2 size
  if ph ≤ 16 * 1024 * 1024 then ph
  else
    let pi := subdivisions mode ph
    match (List.range' 1 (pi - 1)).find? fun i => size ≤ subdivision ph pi i with
    | some i => subdivision ph pi i
    | none => roundUpToPowerOf2 size

def adjustCapacity (mode : Mode) (size : ℕ) : ℕ :=
  if size ≤ minSize then minSize
  else if size ≥ maxSize then maxSize
  else
    match mode with
    | .resizeOnlyEmpty => reservedCapacity size
    | .fast | .fastDivMod => roundUpToPowerOf2 size
    | .saveMemoryFast | .saveMemoryOpt | .saveMemoryMax => subdividedCapacity mode size

/-- The high half of the 128-bit product. -/
def umulh (a b : ℕ) : ℕ := a * b / 2 ^ 64

def capacityMultiplier (capacity : ℕ) : ℕ := (2 ^ 64 - 1) / capacity + 1

/-- The growth trigger of a table of `capacity` slots. Capacities are below
`2 ^ 32` and multiples of the page size, so the `double` product is exact. -/
def growthLimit (capacity : ℕ) (maxLoadFactor : ℚ) : ℕ :=
  if capacity < maxSize then ⌊(capacity : ℚ) * maxLoadFactor⌋₊ else maxSize

end SimdHash
