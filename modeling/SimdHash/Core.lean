import SimdHash.Capacity

/-! The state of a container and the functions of `Core`, one definition for
each, with every array access checked and every `while` loop given `fuel`. -/

namespace SimdHash

open TagVector

inductive ContainerType
  | map
  | set
  | index
  deriving DecidableEq, Repr

/-- The template arguments of `Core`, with the value of `_hasher`. `bDebug` says
whether the assertions are compiled in, as the header's own `assert` always is. -/
structure Template (K : Type) where
  type : ContainerType
  mode : Mode
  bFix : Bool
  bDebug : Bool
  hasher : K → UInt64

structure Entry (K V : Type) where
  key : K
  value : V
  deriving DecidableEq, Repr

/-- `_pages[index >> Shift][index & Mask]` is cell `index`: whole pages are
allocated, so an access is in a page exactly when `index < _size`. -/
abbrev EntryArray (α : Type) := Block α

def EntryArray.adjustSize {α : Type} (bDebug : Bool) (array : EntryArray α) (size : ℕ) :
    Exec (EntryArray α) := do
  let size := if size % pageSize ≠ 0 then size + (pageSize - size % pageSize) else size
  Exec.assert bDebug (size > array.size)
  .ok { array with size }

/-- The members of `Core`. `realIndex` is used by `Type::Index` only, and
`capacityMask` and `capacityMultiplier` each by the modes that set it. -/
structure Core (K V : Type) where
  tags : TagArray
  entries : EntryArray (Entry K V)
  realIndex : EntryArray ℕ
  maxLoadFactor : ℚ
  capacity : ℕ
  capacityMask : ℕ
  count : ℕ
  countGrowthLimit : ℕ
  capacityMultiplier : ℕ

/-- Where the probe loop of `Add` stops. -/
inductive Probed
  | found (realIndex : ℕ)
  | free (entryIndex : ℕ)
  deriving DecidableEq, Repr

namespace Core

variable {K V β : Type}

section Probing

variable (c : Template K) (fuel : ℕ) (s : Core K V)

def adjustTupleIndex (tupleIndex : ℕ) : ℕ :=
  if c.mode = .fast then tupleIndex &&& s.capacityMask
  else umulh (s.capacityMultiplier * tupleIndex % 2 ^ 64) s.capacity

/-- The `while (true)` of every probe: `visit` looks at one window and leaves
the loop with a value or goes on to the next one. -/
def probe (visit : ℕ → Exec (Option β)) (hash : UInt64) : Exec β :=
  Exec.loop (fun (tupleIndex, jump) => do
    match ← visit tupleIndex with
    | some b => .ok (.inr b)
    | none =>
      let jump := (jump + TagVector.size) % 256
      .ok (.inl (s.adjustTupleIndex c (tupleIndex + jump), jump)))
    fuel (s.adjustTupleIndex c hash.toNat, 0)

/-- Where the key of a slot is kept: at the slot itself or, in an `Index`,
where the slot points to. -/
def entryRef (entryIndex : ℕ) : Exec ℕ :=
  if c.type = .index then s.realIndex.read entryIndex else .ok entryIndex

/-- The `while (resultMask)` loop over the slots of a window with the wanted tag. -/
def findMatch [DecidableEq K] (key : K) (tupleIndex resultMask : ℕ) : Exec (Option ℕ) :=
  Exec.loop (fun resultMask =>
    if resultMask = 0 then .ok (.inr none)
    else do
      let realIndex ← s.entryRef c (tupleIndex + trailingZeroCount c.bFix 32 resultMask)
      let entry ← s.entries.read realIndex
      if key = entry.key then .ok (.inr (some realIndex))
      else .ok (.inl (resetLowestSetBit resultMask))) fuel resultMask

def findEntryWindow [DecidableEq K] (key : K) (tupleIndex : ℕ) : Exec (Option (Option ℕ)) := do
  let target := hashToTag (c.hasher key)
  let source ← s.tags.load tupleIndex
  match ← s.findMatch c fuel key tupleIndex (getCmpMask source target) with
  | some realIndex => .ok (some (some realIndex))
  | none => .ok (if getEmptyMask source ≠ 0 then some none else none)

/-- `FindEntry`, with the index it hands to `FUNCTION`; `none` is `false`. -/
def findEntry [DecidableEq K] (key : K) : Exec (Option ℕ) :=
  s.probe c fuel (s.findEntryWindow c fuel key) (c.hasher key)

def probeCheckedWindow [DecidableEq K] (key : K) (tupleIndex : ℕ) : Exec (Option Probed) := do
  let target := hashToTag (c.hasher key)
  let source ← s.tags.load tupleIndex
  match ← s.findMatch c fuel key tupleIndex (getCmpMask source target) with
  | some realIndex => .ok (some (.found realIndex))
  | none =>
    let emptyMask := getEmptyOrTomeStoneMask source
    .ok (if emptyMask ≠ 0 then
      some (.free (tupleIndex + trailingZeroCount c.bFix 32 emptyMask)) else none)

/-- The probe loop of `Add` without `bUnique`. -/
def probeChecked [DecidableEq K] (key : K) : Exec Probed :=
  s.probe c fuel (s.probeCheckedWindow c fuel key) (c.hasher key)

def probeUniqueWindow (tupleIndex : ℕ) : Exec (Option Probed) := do
  let source ← s.tags.load tupleIndex
  let emptyMask := getEmptyOrTomeStoneMask source
  .ok (if emptyMask ≠ 0 then
    some (.free (tupleIndex + trailingZeroCount c.bFix 32 emptyMask)) else none)

/-- The probe loop of `Add` with `bUnique`. -/
def probeUnique (key : K) : Exec Probed :=
  s.probe c fuel (s.probeUniqueWindow c) (c.hasher key)

def findEmptyWindow (tupleIndex : ℕ) : Exec (Option ℕ) := do
  let source ← s.tags.load tupleIndex
  let emptyMask := getEmptyMask source
  .ok (if emptyMask ≠ 0 then some (tupleIndex + trailingZeroCount c.bFix 32 emptyMask) else none)

def findEmpty (hash : UInt64) : Exec ℕ :=
  s.probe c fuel (s.findEmptyWindow c) hash

end Probing

section Rebuilding

variable (c : Template K) (fuel : ℕ)

/-- `_tags[i] = tag; _entries[i] = entry; _Count++`. -/
def place (s : Core K V) (i : ℕ) (tag : UInt8) (entry : Entry K V) : Exec (Core K V) := do
  let tags ← s.tags.write i tag
  let entries ← s.entries.write i entry
  .ok { s with tags, entries, count := s.count + 1 }

/-- `i >= prevTags.size() || prevTags[i] & EMPTY`. -/
def vacated (prevTags : TagArray) (i : ℕ) : Exec Bool := do
  if i ≥ prevTags.size then .ok true
  else
    let tag ← prevTags.read i
    .ok (tag &&& TagVector.empty ≠ 0)

/-- One displacement: put the entry in hand in its slot and take the one that
is still waiting there, which ends where that one's slot has been vacated. -/
def displaceRound : TagArray × Core K V × UInt8 × Entry K V × ℕ →
    Exec ((TagArray × Core K V × UInt8 × Entry K V × ℕ) ⊕ TagArray × Core K V) :=
  fun (prevTags, s, prevTag, prevEntry, emptyIndex) => do
    let saveTag ← Block.read prevTags emptyIndex
    let prevTags ← Block.write prevTags emptyIndex TagVector.empty
    let saveEntry ← s.entries.read emptyIndex
    let s ← s.place emptyIndex prevTag prevEntry
    let emptyIndex ← s.findEmpty c fuel (c.hasher saveEntry.key)
    if ← vacated prevTags emptyIndex then
      let s ← s.place emptyIndex saveTag saveEntry
      .ok (.inr (prevTags, s))
    else .ok (.inl (prevTags, s, saveTag, saveEntry, emptyIndex))

/-- The chain of displacements. -/
def displace (prevTags : TagArray) (s : Core K V) (prevTag : UInt8) (prevEntry : Entry K V)
    (emptyIndex : ℕ) : Exec (TagArray × Core K V) :=
  Exec.loop (displaceRound c fuel) fuel (prevTags, s, prevTag, prevEntry, emptyIndex)

/-- One turn of the loop over the slots of the old table. -/
def rehashSlot (i : ℕ) (state : TagArray × Core K V) : Exec (TagArray × Core K V) := do
  let (prevTags, s) := state
  let prevTag ← prevTags.read i
  if prevTag &&& TagVector.empty ≠ 0 then .ok (prevTags, s)
  else
    let iEntry ← s.entries.read i
    let emptyIndex ← s.findEmpty c fuel (c.hasher iEntry.key)
    let prevTags ← prevTags.write i TagVector.empty
    if emptyIndex = i then
      let tags ← s.tags.write i prevTag
      .ok (prevTags, { s with tags, count := s.count + 1 })
    else if ← vacated prevTags emptyIndex then
      let s ← s.place emptyIndex prevTag iEntry
      .ok (prevTags, s)
    else displace c fuel prevTags s prevTag iEntry emptyIndex

/-- One turn of the loop over the keys of an `Index`. -/
def reindexKey (realIndex : ℕ) (s : Core K V) : Exec (Core K V) := do
  let entry ← s.entries.read realIndex
  let hash := c.hasher entry.key
  let tupleIndex ← s.findEmpty c fuel hash
  let tags ← s.tags.write tupleIndex (hashToTag hash)
  let slots ← s.realIndex.write tupleIndex realIndex
  .ok { s with tags, realIndex := slots }

def rehashInternal (s : Core K V) (size : ℕ) : Exec (Core K V) := do
  if c.type = .index then
    let tags ← s.tags.adjustSize c.bDebug size
    let tags ← tags.init c.bDebug
    Exec.forRange s.count (reindexKey c fuel) { s with tags }
  else
    let prevTags := s.tags
    let tags ← s.tags.clear.adjustSize c.bDebug size
    let tags ← tags.init c.bDebug
    let prevCount := s.count
    let (_, s) ← Exec.forRange prevTags.size (rehashSlot c fuel)
      (prevTags, { s with tags, count := 0 })
    Exec.assert c.bDebug (prevCount = s.count)
    .ok s

def setMaxLoadFactor (s : Core K V) (mlf : FloatValue) : Core K V :=
  let s := { s with maxLoadFactor := mlf.accepted?.getD s.maxLoadFactor }
  { s with countGrowthLimit := growthLimit s.capacity s.maxLoadFactor }

def initCapacity (s : Core K V) (size : ℕ) : Core K V :=
  let s := { s with capacity := adjustCapacity c.mode size }
  let s := if c.mode = .fast then { s with capacityMask := s.capacity - 1 }
    else { s with capacityMultiplier := SimdHash.capacityMultiplier s.capacity }
  s.setMaxLoadFactor (.finite s.maxLoadFactor)

def resize (s : Core K V) (size : ℕ) : Exec (Core K V) := do
  if s.capacity > adjustCapacity c.mode size then .ok s
  else
    if c.mode = .resizeOnlyEmpty then Exec.assert c.bDebug (s.count = 0)
    let s := s.initCapacity c size
    if s.capacity = s.tags.size then .ok s
    else
      let s ← if c.type = .index then do
          let realIndex ← EntryArray.adjustSize c.bDebug s.realIndex s.capacity
          .ok { s with realIndex }
        else do
          let entries ← EntryArray.adjustSize c.bDebug s.entries s.capacity
          .ok { s with entries }
      if s.count = 0 then
        let tags ← s.tags.adjustSize c.bDebug s.capacity
        let tags ← tags.init c.bDebug
        .ok { s with tags }
      else s.rehashInternal c fuel s.capacity

def rehash (s : Core K V) : Exec (Core K V) :=
  if s.count ≠ 0 then s.rehashInternal c fuel s.tags.size else .ok s

def clear (s : Core K V) (size : ℕ) : Exec (Core K V) := do
  let s := { s with count := 0 }
  if size > 0 ∧ adjustCapacity c.mode size ≠ s.capacity then
    resize c fuel { s with tags := s.tags.clear, capacity := 0 } size
  else
    let tags ← s.tags.init c.bDebug
    .ok { s with tags }

/-- `Add` from the chosen slot on, up to the growth that it may trigger. -/
def fillSlot (s : Core K V) (entryIndex : ℕ) (key : K) (value : V) : Exec (Core K V) := do
  let tags ← s.tags.write entryIndex (hashToTag (c.hasher key))
  let s := { s with tags }
  let s ← match c.type with
    | .index => do
      let realIndex ← s.realIndex.write entryIndex s.count
      let entries ← if s.count = s.entries.size then
          EntryArray.adjustSize c.bDebug s.entries (s.count + 1) else .ok s.entries
      let entry ← entries.read s.count
      let entries ← entries.write s.count { entry with key }
      .ok { s with realIndex, entries }
    | .set => do
      let entry ← s.entries.read entryIndex
      let entries ← s.entries.write entryIndex { entry with key }
      .ok { s with entries }
    | .map => do
      let entries ← s.entries.write entryIndex { key, value }
      .ok { s with entries }
  .ok { s with count := s.count + 1 }

end Rebuilding

section Inserting

variable [DecidableEq K] (c : Template K) (fuel : ℕ)

/-- `FUNCTION` on the entry of a present key. A `Set` returns without calling
it, an `Index` hands the index out. -/
def update (s : Core K V) (realIndex : ℕ) (value : V) : Exec (Core K V) :=
  if c.type = .map then do
    let entry ← s.entries.read realIndex
    let entries ← s.entries.write realIndex { entry with value }
    .ok { s with entries }
  else .ok s

/-- The tail of `Add`, from the chosen slot on. -/
def insert (s : Core K V) (entryIndex : ℕ) (key : K) (value : V) : Exec (Core K V) := do
  let s ← s.fillSlot c entryIndex key value
  if s.count = s.countGrowthLimit then s.resize c fuel (s.capacity + 1) else .ok s

/-- `Add<bUnique, bUpdate>`, with the index that an `Index` hands to `FUNCTION`. -/
def add (bUnique bUpdate : Bool) (s : Core K V) (key : K) (value : V) :
    Exec ((Bool × ℕ) × Core K V) := do
  match ← if bUnique then s.probeUnique c fuel key else s.probeChecked c fuel key with
  | .found realIndex =>
    let s ← if bUpdate then s.update c realIndex value else .ok s
    .ok ((false, realIndex), s)
  | .free entryIndex =>
    let t ← s.insert c fuel entryIndex key value
    .ok ((true, s.count), t)

def remove (s : Core K V) (key : K) : Exec (Bool × Core K V) := do
  match ← s.findEntry c fuel key with
  | some entryIndex =>
    let tags ← s.tags.write entryIndex TagVector.tombstone
    .ok (true, { s with tags, count := s.count - 1 })
  | none => .ok (false, s)

end Inserting

end Core

end SimdHash
