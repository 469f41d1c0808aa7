import SimdHash.Exec
import SimdHash.FixedWidth

/-! The file of random keys: `GenerateDataSet` writes it, `GetDataSet` reads
it back. What goes to the console is left out, but for the error messages. -/

namespace SimdHash

namespace DataSet

open FixedWidth

def vectorDataSetSize : List ℕ := [32, 64, 128, 256]

/-- The size for which `main` generates a data set, given `atoi(argv[2])` if
there is such an argument. -/
def requestedSize (arg : Option ℤ) : UInt64 :=
  match vectorDataSetSize.find? fun size : ℕ => (size : ℤ) = arg.getD 128 with
  | some size => UInt64.ofNat (size * 1024 * 1024)
  | none => UInt64.ofNat (128 * 1024 * 1024)

section Judy

/-- What the generator uses of Judy1, on arrays of type `J`: the null array and
`J1S`, with its return code. -/
structure Judy1 (J : Type) where
  null : J
  j1s : J → UInt64 → ℤ × J

/-- An array is a set of machine words. `J1S` inserts a word and returns 1
exactly for a new one. -/
structure Judy1.IsSet {J : Type} (judy : Judy1 J) (words : J → Set UInt64) : Prop where
  null : words judy.null = ∅
  insert : ∀ array word, words (judy.j1s array word).2 = Insert.insert word (words array)
  new : ∀ array word, (judy.j1s array word).1 = 1 ↔ word ∉ words array

end Judy

section Generating

/-- `buffer.capacity()`. -/
def bufferCapacity : ℕ := 128 * 1024

def judyMask : UInt64 := 0x00000000FFFFFFFF

/-- The locals of `GenerateDataSet`, with how many numbers have been drawn, and
the bytes in the file. -/
structure Generator (J : Type) where
  draws : ℕ
  judy : J
  count : UInt32
  buffer : List UInt64
  outFile : List UInt8

variable {J : Type} (judy : Judy1 J)

def Generator.write (g : Generator J) : Generator J :=
  { g with outFile := g.outFile ++ word.encodeAll g.buffer, buffer := [] }

def Generator.push (g : Generator J) (rnd : UInt64) : Generator J :=
  let g := { g with count := g.count + 1, buffer := g.buffer ++ [rnd] }
  if g.buffer.length = bufferCapacity then g.write else g

/-- One round of the loop, on the numbers that `distribution(generator)` gives. -/
def generateStep (distribution : ℕ → UInt64) (dataSetSize : UInt64) (g : Generator J) :
    Exec (Generator J ⊕ Generator J) :=
  if g.count.toUInt64 < dataSetSize then
    let rnd := distribution g.draws
    let low := judy.j1s g.judy (rnd &&& judyMask)
    let g := { g with draws := g.draws + 1, judy := low.2 }
    if low.1 ≠ 1 then .ok (.inl g)
    else
      let high := judy.j1s g.judy (rnd >>> 32)
      let g := { g with judy := high.2 }
      if high.1 ≠ 1 then .ok (.inl g) else .ok (.inl (g.push rnd))
  else .ok (.inr g)

def Generator.start (dataSetSize : UInt64) : Generator J where
  draws := 0
  judy := judy.null
  count := 0
  buffer := [dataSetSize]
  outFile := []

/-- `GenerateDataSet`, with the bytes it leaves in a file that it could open,
or else its error message. -/
def generateDataSet (distribution : ℕ → UInt64) (fuel : ℕ) (isOpen : Bool) (dataSetSize : UInt64) :
    Exec (Except String (List UInt8)) :=
  let dataSetSize := dataSetSize + 1024 * 1024 * 2
  if ¬ isOpen then .ok (.error "Failed to open file for writing.")
  else do
    let g ← Exec.loop (generateStep judy distribution dataSetSize) fuel
      (Generator.start judy dataSetSize)
    let g := if g.buffer.length > 0 then g.write else g
    .ok (.ok g.outFile)

end Generating

section Reading

/-- An input file: the bytes that are left, and whether no read has failed. -/
structure InFile where
  rest : List UInt8
  good : Bool

/-- `inFile.read`. A read that comes to the end of the file gives what is there, and fails. -/
def InFile.read (inFile : InFile) (n : ℕ) : List UInt8 × InFile :=
  if inFile.good then (inFile.rest.take n, ⟨inFile.rest.drop n, decide (n ≤ inFile.rest.length)⟩)
  else ([], inFile)

/-- The check of the header, in 64-bit arithmetic. -/
def HeaderAccepted (dataSetSize : UInt64) : Prop :=
  ((dataSetSize - 1024 * 1024 * 2) / 1024 / 1024).toNat ∈ vectorDataSetSize ∧
    (dataSetSize - 1024 * 1024) % 1024 = 0

instance (dataSetSize : UInt64) : Decidable (HeaderAccepted dataSetSize) :=
  inferInstanceAs (Decidable (_ ∧ _))

/-- `data_set.resize(n)`. -/
def resize (dataSet : Block UInt64) (n : ℕ) : Block UInt64 where
  size := n
  cell k := if k < dataSet.size then dataSet.cell k else 0

/-- The words that are there from word `i` on once `bytes` has been stored there. -/
def store (dataSet : Block UInt64) (i : ℕ) (bytes : List UInt8) : Block UInt64 :=
  { dataSet with
    cell := fun k =>
      if i ≤ k ∧ k < i + bytes.length / word.width then word.valueAt bytes (k - i)
      else dataSet.cell k }

def toList (dataSet : Block UInt64) : List UInt64 := (List.range dataSet.size).map dataSet.cell

def sequential (typeSequential : ℕ) (dataSetSize : UInt64) (k : ℕ) : UInt64 :=
  match typeSequential with
  | 2 => 0xFFFFFFFFFFFFFFFF - UInt64.ofNat k
  | 3 => 0xFFFFFFFFFFFFFFFF / 2 - dataSetSize / 2 - 1 + UInt64.ofNat k
  | _ => UInt64.ofNat k

def bufferSize : ℕ := 128 * 1024 / 8

def corrupted : String := "Failed read data, file corrupted..."

structure Loading where
  i : UInt64
  inFile : InFile
  dataSet : Block UInt64

/-- One round of that loop. Bytes that come are stored at `data_set.data() + i`,
which is out of bounds where they do not fit in the vector. -/
def loadStep (dataSetSize : UInt64) (l : Loading) :
    Exec (Loading ⊕ Except String (Block UInt64)) :=
  if l.i < dataSetSize then
    let read := l.inFile.read (bufferSize * word.width)
    if l.i.toNat * word.width + read.1.length > l.dataSet.size * word.width then .error .outOfBounds
    else if ¬ read.2.good then .ok (.inr (.error corrupted))
    else
      .ok (.inl
        { i := l.i + UInt64.ofNat bufferSize
          inFile := read.2
          dataSet := store l.dataSet l.i.toNat read.1 })
  else .ok (.inr (.ok l.dataSet))

/-- `GetDataSet`, with the numbers it leaves in `data_set`, or the message with
which it exits. `initial` is what `data_set_size` holds before it is read, and
`shuffle` is `std::shuffle` with the generator. -/
def getDataSet (fuel : ℕ) (shuffle : List UInt64 → List UInt64) (file : Option (List UInt8))
    (initial : UInt64) (dataSet : Block UInt64) (typeSequential : ℕ) (bShuffle : Bool) :
    Exec (Except String (List UInt64)) :=
  match file with
  | none => .ok (.error "Failed to open file for reading.")
  | some bytes =>
    let header := InFile.read ⟨bytes, true⟩ word.width
    let dataSetSize := word.decode (header.1 ++ (word.encode initial).drop header.1.length)
    if ¬ HeaderAccepted dataSetSize then .ok (.error corrupted)
    else do
      let dataSet := resize dataSet dataSetSize.toNat
      let loaded ←
        if typeSequential > 0 then
          .ok (.ok { dataSet with cell := sequential typeSequential dataSetSize })
        else Exec.loop (loadStep dataSetSize) fuel ⟨0, header.2, dataSet⟩
      .ok (loaded.map fun dataSet =>
        if bShuffle then shuffle (toList dataSet) else toList dataSet)

end Reading

end DataSet

end SimdHash
