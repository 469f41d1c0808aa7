import SimdHash.Iteration

/-! The benchmark of the containers: the calls it makes and the assertions it
checks, which are never compiled out. What it measures and prints is left out,
but for the numbers by which it divides what it measures. -/

namespace SimdHash

namespace BenchHash

open SimdHash.Core

inductive TestType
  | unknown
  | test1
  | test2
  | test3
  | test4
  | test5
  deriving DecidableEq, Repr

/-- `TKey`: `static_cast<TKey>` of a word, and the word that is added to a sum. -/
structure KeyType (K : Type) where
  cast : UInt64 → K
  word : K → UInt64

def KeyType.uint64 : KeyType UInt64 := ⟨id, id⟩

def KeyType.uint32 : KeyType UInt32 := ⟨UInt64.toUInt32, UInt32.toUInt64⟩

section Flags

variable (BenchFlags : UInt64)

def bReuse : Bool := BenchFlags &&& 0x0000100000000000 ≠ 0

def bUnique : Bool := BenchFlags &&& 0x1000000000000000 ≠ 0

def testType : TestType :=
  if BenchFlags &&& 0x0000010000000000 ≠ 0 then .test2
  else if BenchFlags &&& 0x0000001000000000 ≠ 0 then .test3
  else if BenchFlags &&& 0x0000000100000000 ≠ 0 then .test4
  else if BenchFlags &&& 0x0000000010000000 ≠ 0 then .test5
  else .test1

def reserve (startLoad maxLoad : ℕ) : ℕ :=
  if BenchFlags &&& 0x0100000000000000 ≠ 0 then maxLoad
  else if BenchFlags &&& 0x0010000000000000 ≠ 0 then 1000000
  else if BenchFlags &&& 0x0001000000000000 ≠ 0 then maxLoad / 2
  else startLoad

end Flags

section Vectors

def testVectorSize : ℕ := 1024 * 1024 * 2

/-- `std::sample` with `std::mt19937`: it picks as many words as asked for, or all
there are, leaves them in their order and the generator in its next state. -/
structure Sampler where
  Generator : Type
  seeded : Generator
  sample : List UInt64 → ℕ → Generator → List UInt64 × Generator
  sublist : ∀ data n generator, (sample data n generator).1.Sublist data
  length : ∀ data n generator, (sample data n generator).1.length = min n data.length

structure TestVectors where
  eraseVector : List UInt64
  addVector : List UInt64
  findVector : List UInt64
  unknownVector : List UInt64

/-- The four draws, one after the other from the same generator. -/
def sampled (sampler : Sampler) (dataSet : List UInt64) (load testLoad : ℕ) : TestVectors :=
  let (eraseVector, generator) := sampler.sample (dataSet.take load) testLoad sampler.seeded
  let (findVector, generator) := sampler.sample (dataSet.take load) testLoad generator
  let (addVector, generator) := sampler.sample eraseVector testLoad generator
  let (unknownVector, _) := sampler.sample (dataSet.drop testLoad) testLoad generator
  { eraseVector, addVector, findVector, unknownVector }

def makeTestVector (sampler : Sampler) (dataSet : List UInt64) (load testLoad : ℕ) :
    Exec TestVectors := do
  Exec.assert true (load ≤ dataSet.length)
  Exec.assert true (testLoad ≤ testVectorSize)
  .ok (sampled sampler dataSet load testLoad)

/-- `data[i]`. -/
def wordAt (data : List UInt64) (i : ℕ) : Exec UInt64 :=
  match data[i]? with
  | some x => .ok x
  | none => .error .outOfBounds

/-- `for (int64_t i = n - 1; i >= 0; i--)`. -/
def forDown {σ : Type} (body : ℕ → σ → Exec σ) : ℕ → σ → Exec σ
  | 0, s => .ok s
  | n + 1, s => body n s >>= forDown body n

end Vectors

section Tests

variable {K : Type} [DecidableEq K] (ty : KeyType K) (c : Template K) (fuel : ℕ)

/-- A public function that returns a `bool`. -/
def callBool (op : Op K K c.type) (s : Core K K) : Exec (Bool × Core K K) := do
  match ← step c fuel s op with
  | (.bool ret, s) => .ok (ret, s)
  | (_, s) => .ok (true, s)

/-- `b &= object->f(..)` for `load` words of `data`, from `offset` on. -/
def testEach (op : UInt64 → ℕ → Op K K c.type) (data : List UInt64) (offset load : ℕ)
    (s : Core K K) : Exec (Bool × Core K K) :=
  Exec.forRange load (fun i (b, s) => do
    let x ← wordAt data (offset + i)
    let (ret, s) ← callBool c fuel (op x i) s
    .ok (b && ret, s)) (true, s)

def testAdd (bUnique : Bool) (data : List UInt64) (offset load : ℕ) (s : Core K K) :
    Exec (Bool × Core K K) :=
  testEach c fuel (fun x i => .add bUnique (ty.cast x) (ty.cast (UInt64.ofNat i))) data offset load s

def testRemove (data : List UInt64) (load : ℕ) (s : Core K K) : Exec (Bool × Core K K) :=
  if h : c.type ≠ .index then testEach c fuel (fun x _ => .remove (ty.cast x) h) data 0 load s
  else .ok (true, s)

/-- In reverse the index starts at the 32-bit `load - 1`. -/
def testContains (data : List UInt64) (offset load : ℕ) (bReverse : Bool) (s : Core K K) :
    Exec Bool := do
  if bReverse then
    forDown (fun i b => do
      let x ← wordAt data (offset + i)
      let (ret, _) ← callBool c fuel (.contains (ty.cast x)) s
      .ok (b && ret)) ((load + (2 ^ 32 - 1)) % 2 ^ 32 + 1) true
  else
    let (b, _) ← testEach c fuel (fun x _ => .contains (ty.cast x)) data offset load s
    .ok b

/-- The sum of the keys that a range-based `for` comes to. -/
def keysSum (width : ℕ) (s : Core K K) : Exec UInt64 := do
  let entries ← s.visited c width fuel
  .ok (entries.map fun entry => ty.word entry.key).sum

end Tests

section Benchmark

/-- `assert(f(..))`, or `assert(!f(..))`, of a function that changes the object. -/
def expect {σ : Type} (expected : Bool) (x : Exec (Bool × σ)) : Exec σ := do
  let (b, s) ← x
  Exec.assert true (b = expected)
  .ok s

/-- The same of a function that leaves it as it is. -/
def expectTest (expected : Bool) (x : Exec Bool) : Exec Unit := do
  let b ← x
  Exec.assert true (b = expected)

variable {K : Type} [DecidableEq K] (ty : KeyType K) (c : Template K) (fuel : ℕ)
  (memory : Memory K K) (width : ℕ) (sampler : Sampler)

/-- `16'000.0 / (16 * 1024)`. -/
def maxLoadFactor : FloatValue := .finite (16000 / (16 * 1024))

/-- `object.reset(new TObject)`. The `double` next to 0.9 is above it, and by too
little to show in the truncated product. -/
def create (reserve : ℕ) : Exec (Core K K) := do
  let size := reserve * 9 / 10
  let s ← construct c fuel memory
  let s := s.setMaxLoadFactor maxLoadFactor
  if reserve > 0 then s.resize c fuel size else .ok s

def init (reserve : ℕ) (bReuse : Bool) (tt : TestType) (object : Option (Core K K)) :
    Exec (Core K K) :=
  match object with
  | some s =>
    if bReuse then
      if tt = .test1 then s.clear c fuel 0 else .ok s
    else create c fuel memory reserve
  | none => create c fuel memory reserve

/-- The rounds of `TEST2` that remove keys and add them again. -/
def replaceKeys (bUnique : Bool) (v : TestVectors) (load : ℕ) (s : Core K K) :
    Exec (Core K K) := do
  let s ← expect true (testRemove ty c fuel v.eraseVector load s)
  let s ← expect false (testRemove ty c fuel v.eraseVector load s)
  expectTest false (testContains ty c fuel v.eraseVector 0 load false s)
  expectTest false (testContains ty c fuel v.addVector 0 load false s)
  expectTest false (testContains ty c fuel v.unknownVector 0 load false s)
  let s ← expect true (testAdd ty c fuel bUnique v.addVector 0 load s)
  let s ← expect false (testAdd ty c fuel false v.addVector 0 load s)
  expectTest true (testContains ty c fuel v.findVector 0 load false s)
  let s ← expect true (testRemove ty c fuel v.eraseVector load s)
  let s ← expect false (testRemove ty c fuel v.eraseVector load s)
  let s ← expect true (testAdd ty c fuel bUnique v.addVector 0 load s)
  let s ← expect false (testAdd ty c fuel false v.addVector 0 load s)
  .ok s

/-- `TEST2`, with `opCounter`. -/
def test2 (bUnique : Bool) (v : TestVectors) (testLoad : ℕ) (s : Core K K) :
    Exec (ℕ × Core K K) := do
  let load := testLoad % 2 ^ 32
  let s ← (if c.type ≠ .index then replaceKeys ty c fuel bUnique v load s else .ok s)
  expectTest true (testContains ty c fuel v.eraseVector 0 load false s)
  expectTest true (testContains ty c fuel v.addVector 0 load false s)
  expectTest true (testContains ty c fuel v.findVector 0 load false s)
  expectTest false (testContains ty c fuel v.unknownVector 0 load false s)
  .ok ((if c.type ≠ .index then 16 else 4) * testLoad, s)

/-- `TEST3` and, in reverse, `TEST4`. -/
def testSegments (bReverse : Bool) (dataSet : List UInt64) (load : ℕ) (s : Core K K) :
    Exec (ℕ × Core K K) := do
  let size := load * 5 / 100
  expectTest true (testContains ty c fuel dataSet 0 (size % 2 ^ 32) bReverse s)
  expectTest true (testContains ty c fuel dataSet (load / 2 - size / 2) (size % 2 ^ 32) bReverse s)
  expectTest true (testContains ty c fuel dataSet (load - size) (size % 2 ^ 32) bReverse s)
  .ok (size + size + size, s)

/-- `TEST5`. -/
def testIteration (s : Core K K) : Exec (ℕ × Core K K) := do
  let opCounter ← Exec.forRange 10 (fun _ opCounter => do
    let entries ← s.visited c width fuel
    .ok (opCounter + entries.length)) 0
  .ok (opCounter, s)

/-- The part of `BenchObjectWrapper::Bench` that depends on the test. -/
def runTest (bUnique : Bool) (dataSet : List UInt64) (load : ℕ) (tt : TestType) (v : TestVectors)
    (s : Core K K) : Exec (ℕ × Core K K) :=
  match tt with
  | .test2 => test2 ty c fuel bUnique v (load / 100) s
  | .test3 => testSegments ty c fuel false dataSet load s
  | .test4 => testSegments ty c fuel true dataSet load s
  | .test5 => testIteration c fuel width s
  | _ => .ok (s.count, s)

/-- The division of a number that was measured, which is left out, by `n`. -/
def divideBy (n : ℕ) : Exec Unit := if n = 0 then .error .divisionByZero else .ok ()

/-- `BenchObjectWrapper::Bench`, with `opCounter`. For `TEST5` the time that it
divides is a floating-point number. -/
def benchObject (bReuse bUnique : Bool) (dataSet : List UInt64) (load : ℕ) (tt : TestType)
    (s : Core K K) : Exec (ℕ × Core K K) := do
  let testLoad := load / 100
  let v ← makeTestVector sampler dataSet load testLoad
  let s ← expect true (if tt = .test1 ∨ bReuse = false then
      testAdd ty c fuel bUnique dataSet 0 (load % 2 ^ 32) s
    else testAdd ty c fuel bUnique dataSet s.count ((load + 2 ^ 64 - s.count) % 2 ^ 32) s)
  Exec.assert true (load = s.count)
  let (opCounter, s) ← runTest ty c fuel width bUnique dataSet load tt v s
  let sum ← keysSum ty c fuel width s
  Exec.assert true (((dataSet.take load).map fun x => ty.word (ty.cast x)).sum = sum)
  (if tt ≠ .test5 then divideBy opCounter else .ok ())
  divideBy load
  .ok (opCounter, s)

/-- `object.Init(..)` and `object.Bench(..)`. -/
def benchLoad (reserve : ℕ) (bReuse bUnique : Bool) (dataSet : List UInt64) (load : ℕ)
    (tt : TestType) (object : Option (Core K K)) : Exec (ℕ × Core K K) := do
  let s ← init c fuel memory reserve bReuse tt object
  benchObject ty c fuel width sampler bReuse bUnique dataSet load tt s

/-- `Bench`, with `opCounter` for each load. -/
def bench (BenchFlags : UInt64) (dataSet : List UInt64) (startLoad maxLoad stepLoad : ℕ) :
    Exec (List ℕ × Option (Core K K)) :=
  Exec.loop (fun (load, counters, object) =>
    if load ≤ maxLoad then do
      let (opCounter, s) ← benchLoad ty c fuel memory width sampler
        (reserve BenchFlags startLoad maxLoad % 2 ^ 32) (bReuse BenchFlags) (bUnique BenchFlags)
        dataSet load (testType BenchFlags) object
      .ok (.inl ((load + stepLoad) % 2 ^ 64, counters ++ [opCounter], some s))
    else .ok (.inr (counters, object))) fuel (startLoad, [], none)

end Benchmark

end BenchHash

end SimdHash
