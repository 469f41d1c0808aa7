import SimdHash.Calls
import SimdHash.Heap

/-! What a container allocates and frees: the block of its tags and, for each
of its entry arrays, a table of pages and the pages. The functions here follow
those of the container, for which blocks they touch. -/

namespace SimdHash

/-- The pointers of an `EntryArray`, with its `_size`. A pointer of the table
that has not been stored is `none`. -/
structure PageBlocks where
  table : Option ℕ
  page : ℕ → Option ℕ
  size : ℕ

namespace PageBlocks

/-- The `for` loop of `AdjustSize`, up to page `n`. It throws with the pointers
stored so far. -/
def copyPages (p : PageBlocks) :
    ℕ → (ℕ → Option ℕ) × Heap → Except ((ℕ → Option ℕ) × Heap) ((ℕ → Option ℕ) × Heap)
  | 0, state => .ok state
  | i + 1, state => do
    let (page, h) ← p.copyPages i state
    if i < p.size / pageSize then .ok (Function.update page i (p.page i), h)
    else
      match h.alloc with
      | none => .error (page, h)
      | some (ptr, h) => .ok (Function.update page i (some ptr), h)

def adjustSize (p : PageBlocks) (size : ℕ) (h : Heap) : Step PageBlocks (PageBlocks × Heap) :=
  let size := if size % pageSize ≠ 0 then size + (pageSize - size % pageSize) else size
  match h.alloc with
  | none => .error (.thrown p h)
  | some (table, h) =>
    match p.copyPages (size / pageSize) (fun _ => none, h) with
    | .error (page, h) => .error (.thrown { p with table := some table, page } h)
    | .ok (page, h) => do
      let h ← h.release p.table
      .ok ({ table := some table, page, size }, h)

/-- The destructor's loop, up to page `n`. -/
def freePages {σ : Type} (p : PageBlocks) : ℕ → Heap → Step σ Heap
  | 0, h => .ok h
  | i + 1, h => do
    let h ← p.freePages i h
    match p.page i with
    | none => .error .badFree
    | some ptr => h.free ptr

def destroy {σ : Type} (p : PageBlocks) (h : Heap) : Step σ Heap :=
  match p.table with
  | none => .ok h
  | some table => do
    let h ← p.freePages (p.size / pageSize) h
    h.free table

end PageBlocks

/-- The pointers of a container. `realIndex` is that of an `Index` only. -/
structure Blocks where
  tags : Option ℕ
  entries : PageBlocks
  realIndex : PageBlocks

namespace Blocks

variable {K V : Type} (c : Template K) (s : Core K V) (b : Blocks) (h : Heap)

def unallocated : Blocks := ⟨none, ⟨none, fun _ => none, 0⟩, ⟨none, fun _ => none, 0⟩⟩

/-- `TagArray::AdjustSize`, where `_aligned_malloc` gives a null pointer if it fails. -/
def adjustTags : Step Blocks (Blocks × Heap) := do
  let h ← h.release b.tags
  match h.alloc with
  | none => .error .nullPointer
  | some (ptr, h) => .ok ({ b with tags := some ptr }, h)

/-- The array that follows the capacity is adjusted. -/
def adjustStorage (size : ℕ) : Step Blocks (Blocks × Heap) :=
  if c.type = .index then
    Heap.lift (fun realIndex => { b with realIndex }) (b.realIndex.adjustSize size h)
  else Heap.lift (fun entries => { b with entries }) (b.entries.adjustSize size h)

/-- But for an `Index`, the old tags are moved out of the way, and freed at the end. -/
def rehashInternal : Step Blocks (Blocks × Heap) :=
  if c.type = .index then b.adjustTags h
  else do
    let prevTags := b.tags
    let (b, h) ← adjustTags { b with tags := none } h
    let h ← h.release prevTags
    .ok (b, h)

def resize (size : ℕ) : Step Blocks (Blocks × Heap) :=
  if s.capacity > adjustCapacity c.mode size then .ok (b, h)
  else
    let s := s.initCapacity c size
    if s.capacity = s.tags.size then .ok (b, h)
    else do
      let (b, h) ← b.adjustStorage c h s.capacity
      if s.count = 0 then b.adjustTags h else b.rehashInternal c h

def rehash : Step Blocks (Blocks × Heap) :=
  if s.count ≠ 0 then b.rehashInternal c h else .ok (b, h)

def clear (size : ℕ) : Step Blocks (Blocks × Heap) :=
  let s := { s with count := 0 }
  if size > 0 ∧ adjustCapacity c.mode size ≠ s.capacity then do
    let h ← h.release b.tags
    resize c { s with tags := s.tags.clear, capacity := 0 } { b with tags := none } h size
  else .ok (b, h)

/-- The tail of `Add`, from the chosen slot on. -/
def insert : Step Blocks (Blocks × Heap) := do
  let (b, h) ← if c.type = .index ∧ s.count = b.entries.size then
      Heap.lift (fun entries => { b with entries }) (b.entries.adjustSize (s.count + 1) h)
    else .ok (b, h)
  let s := { s with count := s.count + 1 }
  if s.count = s.countGrowthLimit then b.resize c s h (s.capacity + 1) else .ok (b, h)

/-- The constructor of `Core`. -/
def construct (memory : Memory K V) : Step Blocks (Blocks × Heap) :=
  unallocated.resize c (Core.unallocated memory) h minSize

/-- The destructor: of `_entries`, in an `Index` from `realIndex` on, and of `_tags`. -/
def destroy {σ : Type} : Step σ Heap := do
  let h ← b.realIndex.destroy h
  let h ← b.entries.destroy h
  h.release b.tags

variable [DecidableEq K] (fuel : ℕ)

def add (bUnique : Bool) (key : K) : Step Blocks (Blocks × Heap) :=
  match if bUnique then s.probeUnique c fuel key else s.probeChecked c fuel key with
  | .error e => .error (.fault e)
  | .ok (.found _) => .ok (b, h)
  | .ok (.free _) => b.insert c s h

def step : Op K V c.type → Step Blocks (Blocks × Heap)
  | .add bUnique key _ => b.add c s h fuel bUnique key
  | .addOrUpdate key _ _ => b.add c s h fuel false key
  | .tryAdd key _ _ => b.add c s h fuel false key
  | .resize size => b.resize c s h size
  | .rehash _ => b.rehash c s h
  | .clear size => b.clear c s h size
  | _ => .ok (b, h)

end Blocks

namespace PageBlocks

variable {σ : Type} {p : PageBlocks} {page page' : ℕ → Option ℕ} {m n size : ℕ} {h h' : Heap}
  {rest : Multiset ℕ}

/-- The blocks of the first `n` pages. -/
def held (page : ℕ → Option ℕ) : ℕ → Multiset ℕ
  | 0 => 0
  | n + 1 => held page n + ↑(page n).toList

def blocks (p : PageBlocks) : Multiset ℕ := ↑p.table.toList + held p.page (p.size / pageSize)

/-- Every page is there. -/
structure Full (p : PageBlocks) : Prop where
  page : ∀ i < p.size / pageSize, ∃ a, p.page i = some a
  table : 0 < p.size / pageSize → ∃ a, p.table = some a

theorem held_congr (h : ∀ i < n, page i = page' i) : held page n = held page' n := by
  induction n with
  | zero => rfl
  | succ n ih =>
    have hrest : held page n = held page' n := ih fun i hi => h i (hi.trans (Nat.lt_succ_self n))
    rw [held, held, hrest, h n (Nat.lt_succ_self n)]

theorem held_update (a : Option ℕ) :
    held (Function.update page n a) (n + 1) = held page n + ↑a.toList := by
  have hrest : held (Function.update page n a) n = held page n :=
    held_congr fun i hi => Function.update_of_ne hi.ne _ _
  rw [held, hrest, Function.update_self]

theorem exists_held_add (hpage : ∀ i < n, ∃ a, page i = some a) (hmn : m ≤ n) :
    ∃ more, held page n = held page m + more ∧ more.card = n - m := by
  induction n, hmn using Nat.le_induction with
  | base => exact ⟨0, by simp, by simp⟩
  | succ n hle ih =>
    obtain ⟨more, hmore, hcard⟩ := ih fun i hi => hpage i (hi.trans (Nat.lt_succ_self n))
    obtain ⟨a, ha⟩ := hpage n (Nat.lt_succ_self n)
    refine ⟨more + {a}, ?_, ?_⟩
    · rw [held, hmore, ha, add_assoc]
      rfl
    · rw [Multiset.card_add, hcard, Multiset.card_singleton]
      omega

/-- The destructor frees the pages, all of which are there. -/
theorem freePages_live (hpage : ∀ i < n, ∃ a, p.page i = some a)
    (hlive : h.live.val = held p.page n + rest) :
    ∃ h', p.freePages n h = (.ok h' : Step σ Heap) ∧ h'.live.val = rest := by
  induction n generalizing rest with
  | zero => exact ⟨h, rfl, by simpa [held] using hlive⟩
  | succ n ih =>
    obtain ⟨a, ha⟩ := hpage n (Nat.lt_succ_self n)
    have hlive' : h.live.val = held p.page n + ({a} + rest) := by
      rw [hlive, held, ha, add_assoc]
      rfl
    obtain ⟨h', hfree, hrest⟩ := ih (fun i hi => hpage i (hi.trans (Nat.lt_succ_self n))) hlive'
    obtain ⟨h'', hfree', hrest', -⟩ := Heap.free_live (σ := σ) hrest
    exact ⟨h'', by simp [freePages, hfree, ha, hfree', bind, Except.bind], hrest'⟩

theorem Full.destroy_live (hp : p.Full) (hlive : h.live.val = p.blocks + rest) :
    ∃ h', p.destroy h = (.ok h' : Step σ Heap) ∧ h'.live.val = rest := by
  cases htable : p.table with
  | none =>
    have hzero : p.size / pageSize = 0 := by
      by_contra hpos
      obtain ⟨a, ha⟩ := hp.table (Nat.pos_of_ne_zero hpos)
      simp [htable] at ha
    rw [blocks, htable, hzero, held] at hlive
    exact ⟨h, by simp [destroy, htable], by simpa using hlive⟩
  | some table =>
    have hlive' : h.live.val = held p.page (p.size / pageSize) + ({table} + rest) := by
      rw [hlive, blocks, htable, ← add_assoc, add_comm (held _ _)]
      rfl
    obtain ⟨h', hfree, hrest⟩ := freePages_live (σ := σ) hp.page hlive'
    obtain ⟨h'', hfree', hrest', -⟩ := Heap.free_live (σ := σ) hrest
    exact ⟨h'', by simp [destroy, htable, hfree, hfree', bind, Except.bind], hrest'⟩

/-- What the loop of `AdjustSize` has done up to page `n`: the pages that are
there are taken over, and the others are new. -/
structure Copied (p : PageBlocks) (n : ℕ) (h : Heap) (r : (ℕ → Option ℕ) × Heap) : Prop where
  page : ∀ i < n, ∃ a, r.1 i = some a
  old : ∀ i < n, i < p.size / pageSize → r.1 i = p.page i
  live : ∃ new : Multiset ℕ, r.2.live.val = new + h.live.val ∧
    held r.1 n = held p.page (min n (p.size / pageSize)) + new ∧ r.2.room + new.card = h.room

/-- It throws when all old pages have been taken over. -/
structure Torn (p : PageBlocks) (h : Heap) (r : (ℕ → Option ℕ) × Heap) : Prop where
  old : ∀ i < p.size / pageSize, r.1 i = p.page i
  live : ∃ new : Multiset ℕ, r.2.live.val = new + h.live.val ∧ new.card = h.room

theorem Copied.take {r : (ℕ → Option ℕ) × Heap} (hr : p.Copied n h r) (hp : p.Full)
    (hold : n < p.size / pageSize) :
    p.Copied (n + 1) h (Function.update r.1 n (p.page n), r.2) := by
  obtain ⟨new, hlive, hheld, hroom⟩ := hr.live
  refine ⟨fun i hi => ?_, fun i hi hlt => ?_, new, hlive, ?_, hroom⟩
  · by_cases hin : i = n
    · simpa [hin] using hp.page n hold
    · simpa [hin] using hr.page i (by omega)
  · by_cases hin : i = n
    · simp [hin]
    · simpa [hin] using hr.old i (by omega) hlt
  · rw [min_eq_left hold.le] at hheld
    rw [held_update, min_eq_left hold, hheld, held]
    abel

theorem Copied.add {r : (ℕ → Option ℕ) × Heap} (hr : p.Copied n h r) {a : ℕ}
    (hnew : ¬ n < p.size / pageSize) (halloc : r.2.alloc = some (a, h')) :
    p.Copied (n + 1) h (Function.update r.1 n (some a), h') := by
  obtain ⟨new, hlive, hheld, hroom⟩ := hr.live
  obtain ⟨hlive', hroom'⟩ := Heap.alloc_live halloc
  refine ⟨fun i hi => ?_, fun i hi hlt => ?_, {a} + new, ?_, ?_, ?_⟩
  · by_cases hin : i = n
    · simp [hin]
    · simpa [hin] using hr.page i (by omega)
  · have hin : i ≠ n := by omega
    simpa [hin] using hr.old i (by omega) hlt
  · rw [hlive', hlive, add_assoc]
  · rw [min_eq_right (not_lt.mp hnew)] at hheld
    rw [held_update, min_eq_right (by omega), hheld]
    show _ + {a} = _
    abel
  · rw [Multiset.card_add, Multiset.card_singleton]
    show h'.room + _ = _
    omega

theorem copyPages_succ {state r : (ℕ → Option ℕ) × Heap} (hrun : p.copyPages n state = .ok r) :
    p.copyPages (n + 1) state =
      if n < p.size / pageSize then .ok (Function.update r.1 n (p.page n), r.2)
      else match r.2.alloc with
        | none => .error r
        | some (ptr, h) => .ok (Function.update r.1 n (some ptr), h) := by
  rw [copyPages, hrun]
  rfl

theorem copyPages_cases (hp : p.Full) (n : ℕ) (h : Heap) :
    (∃ r, p.copyPages n (fun _ => none, h) = .ok r ∧ p.Copied n h r) ∨
      ∃ r, p.copyPages n (fun _ => none, h) = .error r ∧ p.Torn h r := by
  induction n with
  | zero => exact .inl ⟨_, rfl, by simp, by simp, 0, by simp, by simp [held], by simp⟩
  | succ n ih =>
    rcases ih with ⟨r, hrun, hr⟩ | ⟨r, hrun, hr⟩
    · rw [copyPages_succ hrun]
      by_cases hold : n < p.size / pageSize
      · rw [if_pos hold]
        exact .inl ⟨_, rfl, hr.take hp hold⟩
      · rw [if_neg hold]
        cases halloc : r.2.alloc with
        | none =>
          obtain ⟨new, hlive, -, hroom⟩ := hr.live
          have hnone := Heap.alloc_eq_none.mp halloc
          exact .inr ⟨r, rfl, fun i hi => hr.old i (by omega) hi, new, hlive, by omega⟩
        | some r' => exact .inl ⟨_, rfl, hr.add hold halloc⟩
    · refine .inr ⟨r, ?_, hr⟩
      rw [copyPages, hrun]
      rfl

/-- `AdjustSize` gives up the pages beyond the new size. An exception loses what
has been allocated, but for the table that replaces the old one. -/
theorem Full.adjustSize_leaves (hp : p.Full) {asked : ℕ}
    (hsize : (if asked % pageSize ≠ 0 then asked + (pageSize - asked % pageSize) else asked) = size)
    (hlive : h.live.val = p.blocks + rest) :
    Heap.Leaves (p.adjustSize asked h)
      (fun r => r.1.Full ∧ r.1.size = size ∧ r.2.room ≤ h.room ∧ ∃ lost : Multiset ℕ,
        lost.card = p.size / pageSize - size / pageSize ∧
        r.2.live.val = r.1.blocks + (lost + rest))
      (fun p' h' => p'.Full ∧ p'.size = p.size ∧ ∃ lost : Multiset ℕ,
        lost.card = (if h.room = 0 then 0 else p.table.toList.length + (h.room - 1)) ∧
        h'.live.val = p'.blocks + (lost + rest)) := by
  rw [adjustSize, hsize]
  cases halloc : h.alloc with
  | none =>
    have hroom := Heap.alloc_eq_none.mp halloc
    exact ⟨hp, rfl, 0, by simp [hroom], by simpa using hlive⟩
  | some r =>
    obtain ⟨table, h₁⟩ := r
    obtain ⟨hlive₁, hroom₁⟩ := Heap.alloc_live halloc
    rw [hlive, blocks] at hlive₁
    rcases copyPages_cases hp (size / pageSize) h₁ with ⟨r, hrun, hr⟩ | ⟨r, hrun, hr⟩
    · obtain ⟨new, hnew, hheld, hroom⟩ := hr.live
      obtain ⟨more, hmore, hcard⟩ :=
        exists_held_add hp.page (min_le_right (size / pageSize) (p.size / pageSize))
      have hfree : r.2.live.val = ↑p.table.toList +
          ({table} + held r.1 (size / pageSize) + (more + rest)) := by
        rw [hnew, hlive₁, hmore, hheld]
        abel
      obtain ⟨h₂, hrelease, hlive₂, hroom₂⟩ := Heap.release_live (σ := PageBlocks) hfree
      simp only [hrun, hrelease, bind, Except.bind]
      refine ⟨⟨hr.page, fun _ => ⟨table, rfl⟩⟩, rfl, by show h₂.room ≤ h.room; omega, more, ?_, hlive₂⟩
      rw [hcard]
      omega
    · obtain ⟨new, hnew, hcard⟩ := hr.live
      simp only [hrun]
      refine ⟨⟨fun i hi => ?_, fun _ => ⟨table, rfl⟩⟩, rfl, ↑p.table.toList + new, ?_, ?_⟩
      · obtain ⟨a, ha⟩ := hp.page i hi
        exact ⟨a, (hr.old i hi).trans ha⟩
      · rw [if_neg (by omega), Multiset.card_add, hcard, Multiset.coe_card]
        omega
      · rw [hnew, hlive₁, blocks]
        show _ = {table} + held r.1 (p.size / pageSize) + _
        rw [held_congr hr.old]
        abel

end PageBlocks

namespace Blocks

variable {K V : Type} {c : Template K} {s : Core K V} {b : Blocks} {h : Heap} {rest : Multiset ℕ}
  {capacity next size : ℕ} {T : Blocks → Heap → Prop}

def all (b : Blocks) : Multiset ℕ := ↑b.tags.toList + (b.entries.blocks + b.realIndex.blocks)

/-- The array that follows the capacity. -/
def storage (c : Template K) (b : Blocks) : PageBlocks :=
  if c.type = .index then b.realIndex else b.entries

/-- What is allocated is owned by `b`, or is among the `rest`. -/
structure Owned (c : Template K) (capacity : ℕ) (b : Blocks) (h : Heap) (rest : Multiset ℕ) :
    Prop where
  entries : b.entries.Full
  realIndex : b.realIndex.Full
  storage : (b.storage c).size = capacity
  live : h.live.val = b.all + rest

/-- `b` owns what it owned but for `count` blocks, and its storage has the new size. -/
def Kept (c : Template K) (capacity count : ℕ) (rest : Multiset ℕ) (b : Blocks) (h : Heap) : Prop :=
  ∃ lost : Multiset ℕ, lost.card = count ∧ Owned c capacity b h (lost + rest)

/-- What an exception leaves: at most `room` blocks are lost. -/
def Broken (c : Template K) (capacity room : ℕ) (rest : Multiset ℕ) (b : Blocks) (h : Heap) : Prop :=
  ∃ lost : Multiset ℕ, lost.card ≤ room ∧ Owned c capacity b h (lost + rest)

theorem Owned.tags_live (howned : Owned c capacity b h rest) :
    h.live.val = ↑b.tags.toList + (b.entries.blocks + b.realIndex.blocks + rest) := by
  rw [howned.live, all, add_assoc]

theorem Owned.entries_live (howned : Owned c capacity b h rest) :
    h.live.val = b.entries.blocks + (↑b.tags.toList + b.realIndex.blocks + rest) := by
  rw [howned.live, all]
  abel

theorem Owned.realIndex_live (howned : Owned c capacity b h rest) :
    h.live.val = b.realIndex.blocks + (↑b.tags.toList + b.entries.blocks + rest) := by
  rw [howned.live, all]
  abel

/-- The entries are replaced, and some blocks are lost. -/
theorem Owned.put_entries (howned : Owned c capacity b h rest) {p : PageBlocks} {h' : Heap}
    {lost : Multiset ℕ} (hp : p.Full) (hsize : (Blocks.storage c { b with entries := p }).size = next)
    (hlive : h'.live.val = p.blocks + (lost + (↑b.tags.toList + b.realIndex.blocks + rest))) :
    Owned c next { b with entries := p } h' (lost + rest) := by
  refine ⟨hp, howned.realIndex, hsize, ?_⟩
  rw [hlive, all]
  abel

theorem Owned.put_realIndex (howned : Owned c capacity b h rest) {p : PageBlocks} {h' : Heap}
    {lost : Multiset ℕ} (hp : p.Full) (hsize : (Blocks.storage c { b with realIndex := p }).size = next)
    (hlive : h'.live.val = p.blocks + (lost + (↑b.tags.toList + b.entries.blocks + rest))) :
    Owned c next { b with realIndex := p } h' (lost + rest) := by
  refine ⟨howned.entries, hp, hsize, ?_⟩
  rw [hlive, all]
  abel

theorem Owned.destroy_live (howned : Owned c capacity b h rest) :
    ∃ h', b.destroy h = (.ok h' : Step Blocks Heap) ∧ h'.live.val = rest := by
  have hlive : h.live.val = b.realIndex.blocks + (b.entries.blocks + (↑b.tags.toList + rest)) := by
    rw [howned.live, all]
    abel
  obtain ⟨h₁, hrun₁, hlive₁⟩ := howned.realIndex.destroy_live (σ := Blocks) hlive
  obtain ⟨h₂, hrun₂, hlive₂⟩ := howned.entries.destroy_live (σ := Blocks) hlive₁
  obtain ⟨h₃, hrun₃, hlive₃, -⟩ := Heap.release_live (σ := Blocks) hlive₂
  exact ⟨h₃, by simp [destroy, hrun₁, hrun₂, hrun₃, bind, Except.bind], hlive₃⟩

theorem Owned.adjustTags_leaves (howned : Owned c capacity b h rest) :
    Heap.Leaves (b.adjustTags h) (fun r => Owned c capacity r.1 r.2 rest) T := by
  obtain ⟨h₁, hrun₁, hlive₁, -⟩ := Heap.release_live (σ := Blocks) howned.tags_live
  rw [adjustTags, hrun₁]
  cases halloc : h₁.alloc with
  | none => simp [halloc, bind, Except.bind, Heap.Leaves]
  | some r =>
    obtain ⟨ptr, h₂⟩ := r
    obtain ⟨hlive₂, -⟩ := Heap.alloc_live halloc
    simp only [halloc, bind, Except.bind]
    refine ⟨howned.entries, howned.realIndex, howned.storage, ?_⟩
    rw [hlive₂, hlive₁, all, ← add_assoc]
    rfl

theorem Owned.give_tags (howned : Owned c capacity b h rest) :
    Owned c capacity { b with tags := none } h (↑b.tags.toList + rest) := by
  refine ⟨howned.entries, howned.realIndex, howned.storage, ?_⟩
  rw [howned.live, all, all]
  show _ = (0 + _) + _
  abel

theorem Owned.rehashInternal_leaves (howned : Owned c capacity b h rest) :
    Heap.Leaves (b.rehashInternal c h) (fun r => Owned c capacity r.1 r.2 rest) T := by
  by_cases ht : c.type = .index
  · rw [rehashInternal, if_pos ht]
    exact howned.adjustTags_leaves
  · rw [rehashInternal, if_neg ht]
    refine howned.give_tags.adjustTags_leaves.bind fun r hr => ?_
    have hlive : r.2.live.val = ↑b.tags.toList + (r.1.all + rest) := by
      rw [hr.live]
      abel
    obtain ⟨h', hrun, hlive', -⟩ := Heap.release_live (σ := Blocks) hlive
    simp only [hrun, bind, Except.bind]
    exact ⟨hr.entries, hr.realIndex, hr.storage, hlive'⟩

theorem Owned.rehash_leaves (howned : Owned c capacity b h rest) :
    Heap.Leaves (b.rehash c s h) (fun r => Owned c capacity r.1 r.2 rest) T := by
  rw [rehash]
  split_ifs
  · exact howned.rehashInternal_leaves
  · exact howned

theorem lost_le {p : PageBlocks} {lost : Multiset ℕ}
    (hcard : lost.card = if h.room = 0 then 0 else p.table.toList.length + (h.room - 1)) :
    lost.card ≤ h.room := by
  have hone : p.table.toList.length ≤ 1 := by cases p.table <;> simp
  split_ifs at hcard <;> omega

theorem Owned.adjustStorage_leaves (howned : Owned c capacity b h rest) (hsize : pageSize ∣ size) :
    Heap.Leaves (b.adjustStorage c h size)
      (fun r => Kept c size (capacity / pageSize - size / pageSize) rest r.1 r.2)
      (Broken c capacity h.room rest) := by
  have hround : (if size % pageSize ≠ 0 then size + (pageSize - size % pageSize) else size) = size :=
    if_neg (not_not.mpr (Nat.mod_eq_zero_of_dvd hsize))
  by_cases ht : c.type = .index
  · have hstorage : b.realIndex.size = capacity := by simpa [Blocks.storage, ht] using howned.storage
    rw [adjustStorage, if_pos ht]
    refine ((howned.realIndex.adjustSize_leaves hround howned.realIndex_live).imp ?_ ?_).lift
    · intro r hr
      obtain ⟨hfull, hnew, -, lost, hcard, hlive'⟩ := hr
      have hnext : (Blocks.storage c { b with realIndex := r.1 }).size = size := by
        simpa [Blocks.storage, ht] using hnew
      exact ⟨lost, hstorage ▸ hcard, howned.put_realIndex hfull hnext hlive'⟩
    · intro p' h' hr
      obtain ⟨hfull, hold, lost, hcard, hlive'⟩ := hr
      have hkept : (Blocks.storage c { b with realIndex := p' }).size = capacity := by
        simpa [Blocks.storage, ht] using hold.trans hstorage
      exact ⟨lost, lost_le hcard, howned.put_realIndex hfull hkept hlive'⟩
  · have hstorage : b.entries.size = capacity := by simpa [Blocks.storage, ht] using howned.storage
    rw [adjustStorage, if_neg ht]
    refine ((howned.entries.adjustSize_leaves hround howned.entries_live).imp ?_ ?_).lift
    · intro r hr
      obtain ⟨hfull, hnew, -, lost, hcard, hlive'⟩ := hr
      have hnext : (Blocks.storage c { b with entries := r.1 }).size = size := by
        simpa [Blocks.storage, ht] using hnew
      exact ⟨lost, hstorage ▸ hcard, howned.put_entries hfull hnext hlive'⟩
    · intro p' h' hr
      obtain ⟨hfull, hold, lost, hcard, hlive'⟩ := hr
      have hkept : (Blocks.storage c { b with entries := p' }).size = capacity := by
        simpa [Blocks.storage, ht] using hold.trans hstorage
      exact ⟨lost, lost_le hcard, howned.put_entries hfull hkept hlive'⟩

theorem Owned.kept (howned : Owned c capacity b h rest) :
    Kept c capacity (capacity / pageSize - capacity / pageSize) rest b h :=
  ⟨0, by simp, by simpa using howned⟩

theorem Broken.mono {room room' : ℕ} (hb : Broken c capacity room rest b h) (hle : room ≤ room') :
    Broken c capacity room' rest b h := by
  obtain ⟨lost, hcard, howned⟩ := hb
  exact ⟨lost, hcard.trans hle, howned⟩

theorem Owned.resize_leaves (howned : Owned c capacity b h rest)
    (hnext : next = if s.capacity > adjustCapacity c.mode size ∨
      adjustCapacity c.mode size = s.tags.size then capacity else adjustCapacity c.mode size) :
    Heap.Leaves (b.resize c s h size)
      (fun r => Kept c next (capacity / pageSize - next / pageSize) rest r.1 r.2)
      (Broken c capacity h.room rest) := by
  have hcap : (s.initCapacity c size).capacity = adjustCapacity c.mode size :=
    Core.initCapacity_capacity
  have htags : (s.initCapacity c size).tags = s.tags := Core.initCapacity_tags
  rw [resize]
  by_cases hgt : s.capacity > adjustCapacity c.mode size
  · rw [if_pos (.inl hgt)] at hnext
    rw [if_pos hgt, hnext]
    exact howned.kept
  simp only [if_neg hgt, hcap, htags]
  by_cases hsame : adjustCapacity c.mode size = s.tags.size
  · rw [if_pos (.inr hsame)] at hnext
    rw [if_pos hsame, hnext]
    exact howned.kept
  rw [if_neg (not_or.mpr ⟨hgt, hsame⟩)] at hnext
  rw [if_neg hsame, ← hnext]
  have hpage : pageSize ∣ next := hnext ▸ (adjustCapacity_isCapacity c.mode size).page
  refine (howned.adjustStorage_leaves hpage).bind fun r hr => ?_
  obtain ⟨lost, hcard, hr⟩ := hr
  split_ifs
  · exact hr.adjustTags_leaves.imp (fun _ hr' => ⟨lost, hcard, hr'⟩) fun _ _ ht => ht
  · exact hr.rehashInternal_leaves.imp (fun _ hr' => ⟨lost, hcard, hr'⟩) fun _ _ ht => ht

theorem next_capacity (hs : s.Inv c) (size : ℕ) :
    max s.capacity (adjustCapacity c.mode size) = if s.capacity > adjustCapacity c.mode size ∨
      adjustCapacity c.mode size = s.tags.size then s.capacity else adjustCapacity c.mode size := by
  have hsize := hs.size_eq
  split_ifs with hold
  · exact max_eq_left (by omega)
  · exact max_eq_right (by omega)

theorem next_unallocated (mode : Mode) (size capacity : ℕ) : adjustCapacity mode size =
    if 0 > adjustCapacity mode size ∨ adjustCapacity mode size = 0 then capacity
    else adjustCapacity mode size := by
  have hpos : 0 < adjustCapacity mode size :=
    (show 0 < minSize by decide).trans_le (adjustCapacity_isCapacity mode size).min_le
  rw [if_neg (by omega)]

theorem Owned.release_tags (howned : Owned c capacity b h rest) :
    ∃ h', h.release b.tags = (.ok h' : Step Blocks Heap) ∧ h'.room = h.room ∧
      Owned c capacity { b with tags := none } h' rest := by
  obtain ⟨h', hrun, hlive, hroom⟩ := Heap.release_live (σ := Blocks) howned.tags_live
  refine ⟨h', hrun, hroom, howned.entries, howned.realIndex, howned.storage, ?_⟩
  rw [hlive, all]
  show _ = 0 + _ + _
  abel

theorem Owned.clear_leaves (howned : Owned c s.capacity b h rest)
    (hnext : next = if size = 0 then s.capacity else adjustCapacity c.mode size) :
    Heap.Leaves (b.clear c s h size)
      (fun r => Kept c next (s.capacity / pageSize - next / pageSize) rest r.1 r.2)
      (Broken c s.capacity h.room rest) := by
  rw [clear]
  by_cases hnew : size > 0 ∧ adjustCapacity c.mode size ≠ s.capacity
  · rw [if_neg hnew.1.ne'] at hnext
    obtain ⟨h', hrun, hroom, hfreed⟩ := howned.release_tags
    have hresize := hfreed.resize_leaves (s := { s with tags := s.tags.clear, capacity := 0, count := 0 })
      (hnext.trans (next_unallocated _ _ _))
    rw [if_pos hnew, hrun]
    exact hresize.imp (fun _ hr => hr) fun _ _ hb => hb.mono hroom.le
  · rw [if_neg hnew]
    have hsame : next = s.capacity := by
      rw [hnext]
      split_ifs with hz
      · rfl
      · exact not_not.mp fun hne => hnew ⟨Nat.pos_of_ne_zero hz, hne⟩
    rw [hsame]
    exact howned.kept

/-- The dense array of an `Index` grows by a page, if it is full. -/
theorem Owned.growDense_leaves (howned : Owned c s.capacity b h rest) (ht : c.type = .index)
    (hfull : s.count = b.entries.size) :
    Heap.Leaves (Heap.lift (fun entries => { b with entries }) (b.entries.adjustSize (s.count + 1) h))
      (fun r => Owned c s.capacity r.1 r.2 rest ∧ r.2.room ≤ h.room)
      (Broken c s.capacity h.room rest) := by
  have hstorage (p : PageBlocks) : (Blocks.storage c { b with entries := p }).size = s.capacity := by
    simpa [Blocks.storage, ht] using howned.storage
  refine ((howned.entries.adjustSize_leaves rfl howned.entries_live).imp ?_ ?_).lift
  · intro r hr
    obtain ⟨hfull', hnew, hroom, lost, hcard, hlive'⟩ := hr
    obtain rfl : lost = 0 := by
      have hle : b.entries.size / pageSize ≤ (if (s.count + 1) % pageSize ≠ 0 then
          s.count + 1 + (pageSize - (s.count + 1) % pageSize) else s.count + 1) / pageSize := by
        refine Nat.div_le_div_right ?_
        split_ifs <;> omega
      exact Multiset.card_eq_zero.mp (by omega)
    have hput := howned.put_entries hfull' (hstorage r.1) hlive'
    exact ⟨by simpa only [zero_add] using hput, hroom⟩
  · intro p' h' hr
    obtain ⟨hfull', hold, lost, hcard, hlive'⟩ := hr
    exact ⟨lost, lost_le hcard, howned.put_entries hfull' (hstorage p') hlive'⟩

theorem Owned.insert_leaves (howned : Owned c s.capacity b h rest) (hs : s.Inv c)
    (hnext : next = if s.count + 1 = s.countGrowthLimit then
      max s.capacity (adjustCapacity c.mode (s.capacity + 1)) else s.capacity) :
    Heap.Leaves (b.insert c s h)
      (fun r => Kept c next (s.capacity / pageSize - next / pageSize) rest r.1 r.2)
      (Broken c s.capacity h.room rest) := by
  have hgrow {b : Blocks} {h : Heap} (howned : Owned c s.capacity b h rest) :
      Heap.Leaves (if s.count + 1 = s.countGrowthLimit then
          b.resize c { s with count := s.count + 1 } h (s.capacity + 1) else .ok (b, h))
        (fun r => Kept c next (s.capacity / pageSize - next / pageSize) rest r.1 r.2)
        (Broken c s.capacity h.room rest) := by
    by_cases hlimit : s.count + 1 = s.countGrowthLimit
    · rw [if_pos hlimit] at hnext
      rw [if_pos hlimit]
      exact howned.resize_leaves (hnext.trans (next_capacity hs _))
    · rw [if_neg hlimit] at hnext
      rw [if_neg hlimit, hnext]
      exact howned.kept
  rw [insert]
  by_cases hfull : c.type = .index ∧ s.count = b.entries.size
  · rw [if_pos hfull]
    refine (howned.growDense_leaves hfull.1 hfull.2).bind fun r hr => ?_
    exact (hgrow hr.1).imp (fun _ hr' => hr') fun _ _ hb => hb.mono hr.2
  · rw [if_neg hfull]
    exact hgrow howned

end Blocks

end SimdHash
