import SimdHash.BenchCalls

/-! The loops of the benchmark: each goes through consecutive words of a vector
and leaves the phase that its calls lead to one after the other. -/

namespace SimdHash

namespace BenchHash

open SimdHash.Core OpenAddressing

namespace Phase

variable {K : Type} [DecidableEq K] {p : Phase K} {keys : List K}

def addAll (p : Phase K) (keys : List K) : Phase K := keys.foldl add p

def removeAll (p : Phase K) (keys : List K) : Phase K := keys.foldl remove p

@[simp] theorem keys_addAll : (p.addAll keys).keys = p.keys ∪ keys.toFinset := by
  induction keys generalizing p with
  | nil => simp [addAll]
  | cons key keys ih =>
    have h := ih (p := p.add key)
    simp only [addAll, List.foldl_cons] at h ⊢
    rw [h, List.toFinset_cons, add, Finset.insert_union, Finset.union_insert]

@[simp] theorem stale_addAll : (p.addAll keys).stale = p.stale := by
  induction keys generalizing p with
  | nil => rfl
  | cons key keys ih => exact ih (p := p.add key)

@[simp] theorem graves_addAll : (p.addAll keys).graves = p.graves := by
  induction keys generalizing p with
  | nil => rfl
  | cons key keys ih => exact ih (p := p.add key)

theorem le_peak_addAll : p.peak ≤ (p.addAll keys).peak := by
  induction keys generalizing p with
  | nil => exact le_rfl
  | cons key keys ih => exact (le_max_left _ _).trans (ih (p := p.add key))

theorem addAll_of_subset (h : ∀ key ∈ keys, key ∈ p.keys) : p.addAll keys = p := by
  induction keys with
  | nil => rfl
  | cons key keys ih =>
    obtain ⟨hkey, hkeys⟩ := List.forall_mem_cons.mp h
    have hrest := ih hkeys
    simp only [addAll, List.foldl_cons] at hrest ⊢
    rw [add_of_mem hkey, hrest]

@[simp] theorem keys_removeAll : (p.removeAll keys).keys = p.keys \ keys.toFinset := by
  induction keys generalizing p with
  | nil => simp [removeAll]
  | cons key keys ih =>
    have h := ih (p := p.remove key)
    simp only [removeAll, List.foldl_cons] at h ⊢
    rw [h, List.toFinset_cons, remove, Finset.sdiff_insert, Finset.erase_sdiff_comm]

@[simp] theorem peak_removeAll : (p.removeAll keys).peak = p.peak := by
  induction keys generalizing p with
  | nil => rfl
  | cons key keys ih => exact ih (p := p.remove key)

theorem graves_removeAll_le : (p.removeAll keys).graves ≤ p.graves + keys.length := by
  induction keys generalizing p with
  | nil => exact le_rfl
  | cons key keys ih =>
    have h := ih (p := p.remove key)
    have hone : (p.remove key).graves ≤ p.graves + 1 := by
      rw [remove]
      split_ifs <;> simp
    simp only [removeAll, List.foldl_cons, List.length_cons] at h ⊢
    omega

theorem removeAll_of_disjoint (h : ∀ key ∈ keys, key ∉ p.keys) : p.removeAll keys = p := by
  induction keys with
  | nil => rfl
  | cons key keys ih =>
    obtain ⟨hkey, hkeys⟩ := List.forall_mem_cons.mp h
    have hrest := ih hkeys
    simp only [removeAll, List.foldl_cons] at hrest ⊢
    rw [remove_of_notMem hkey, hrest]

end Phase

variable {K : Type} (ty : KeyType K) {c : Template K} {s t : Core K K} {p : Phase K} {fuel : ℕ}
  {calm : Prop} {data : List UInt64} {offset load : ℕ}

/-- The keys that `load` words of `data` give, from `offset` on. -/
def keysAt (data : List UInt64) (offset load : ℕ) : List K :=
  ((data.drop offset).take load).map ty.cast

section Loops

variable {ty}

theorem keysAt_getElem? {i : ℕ} (hi : i < load) :
    (keysAt ty data offset load)[i]? = (data[offset + i]?).map ty.cast := by
  rw [keysAt, List.getElem?_map, List.getElem?_take_of_lt hi, List.getElem?_drop]

theorem keysAt_take {i : ℕ} {x : UInt64} (hi : i < load) (hx : data[offset + i]? = some x) :
    (keysAt ty data offset load).take (i + 1) =
      (keysAt ty data offset load).take i ++ [ty.cast x] := by
  rw [List.take_add_one, keysAt_getElem? hi, hx]
  rfl

theorem keysAt_take_load : (keysAt ty data offset load).take load = keysAt ty data offset load := by
  refine List.take_of_length_le ?_
  rw [keysAt, List.length_map]
  exact List.length_take_le _ _

theorem length_keysAt (h : offset + load ≤ data.length) :
    (keysAt ty data offset load).length = load := by
  rw [keysAt, List.length_map, List.length_take, List.length_drop]
  omega

theorem exists_wordAt {i : ℕ} (h : i < data.length) :
    ∃ x, data[i]? = some x ∧ wordAt data i = .ok x := by
  refine ⟨data[i], List.getElem?_eq_getElem h, ?_⟩
  rw [wordAt, List.getElem?_eq_getElem h]

theorem keysAt_notMem_take {i : ℕ} {x : UInt64} (hnodup : (keysAt ty data offset load).Nodup)
    (hi : i < load) (hx : data[offset + i]? = some x) :
    ty.cast x ∉ (keysAt ty data offset load).take i := by
  have hsub : ((keysAt ty data offset load).take i ++ [ty.cast x]).Nodup := by
    rw [← keysAt_take hi hx]
    exact hnodup.sublist (List.take_sublist _ _)
  intro hmem
  exact (List.nodup_append.mp hsub).2.2 _ hmem _ (List.mem_singleton_self _) rfl

theorem cast_mem_keysAt {i : ℕ} {x : UInt64} (hi : i < load) (hx : data[offset + i]? = some x) :
    ty.cast x ∈ keysAt ty data offset load := by
  refine List.mem_of_getElem? (i := i) ?_
  rw [keysAt_getElem? hi, hx]
  rfl

variable [DecidableEq K] {E : Fault → Prop}

/-- The loop rule: what each call answers and how it moves the phase. -/
theorem testEach_ensures {op : UInt64 → ℕ → Op K K c.type} {f : Phase K → K → Phase K}
    (ans : K → Prop) (h : Tracks c calm s p) (hlen : offset + load ≤ data.length)
    (hcall : ∀ i x t, i < load → data[offset + i]? = some x →
      Tracks c calm t (((keysAt ty data offset load).take i).foldl f p) →
      Exec.Ensures (callBool c fuel (op x i) t) (fun r => (r.1 = true ↔ ans (ty.cast x)) ∧
        Tracks c calm r.2 (f (((keysAt ty data offset load).take i).foldl f p) (ty.cast x))) E) :
    Exec.Ensures (testEach c fuel op data offset load s)
      (fun r => (r.1 = true ↔ ∀ key ∈ keysAt ty data offset load, ans key) ∧
        Tracks c calm r.2 ((keysAt ty data offset load).foldl f p)) E := by
  have hloop : Exec.Ensures (testEach c fuel op data offset load s)
      (fun r => (r.1 = true ↔ ∀ key ∈ (keysAt ty data offset load).take load, ans key) ∧
        Tracks c calm r.2 (((keysAt ty data offset load).take load).foldl f p)) E := by
    refine Exec.ensures_forRange (I := fun i (r : Bool × Core K K) =>
      (r.1 = true ↔ ∀ key ∈ (keysAt ty data offset load).take i, ans key) ∧
        Tracks c calm r.2 (((keysAt ty data offset load).take i).foldl f p)) ⟨by simp, h⟩ ?_
    intro i r hi hI
    obtain ⟨b, t⟩ := r
    obtain ⟨hb, ht⟩ := hI
    have hlt : offset + i < data.length := by omega
    obtain ⟨x, hx, hword⟩ := exists_wordAt hlt
    simp only [hword, Exec.ok_bind]
    refine (hcall i x t hi hx ht).bind fun r hr => ?_
    obtain ⟨hret, hnext⟩ := hr
    rw [keysAt_take hi hx]
    refine ⟨?_, by simpa using hnext⟩
    rw [Bool.and_eq_true, hb, hret, List.forall_mem_append, List.forall_mem_singleton]
  rwa [keysAt_take_load] at hloop

variable (hset : Setting c fuel calm)

include hset

theorem Tracks.testAdd_ensures (h : Tracks c calm s p) (bUnique : Bool)
    (hlen : offset + load ≤ data.length) (hnodup : (keysAt ty data offset load).Nodup)
    (hstale : ∀ key ∈ keysAt ty data offset load, key ∉ p.stale)
    (hunique : bUnique = true → ∀ key ∈ keysAt ty data offset load, key ∉ p.keys)
    (hsmall : calm → (p.keys ∪ (keysAt ty data offset load).toFinset).card < 2 ^ 28) :
    Exec.Ensures (testAdd ty c fuel bUnique data offset load s)
      (fun r => (r.1 = true ↔ ∀ key ∈ keysAt ty data offset load, key ∉ p.keys) ∧
        Tracks c calm r.2 (p.addAll (keysAt ty data offset load))) (Late calm) := by
  refine testEach_ensures (fun key => key ∉ p.keys) h hlen fun i x t hi hx ht => ?_
  have hkey : ty.cast x ∈ keysAt ty data offset load := cast_mem_keysAt hi hx
  have hnew := keysAt_notMem_take hnodup hi hx
  change Tracks c calm t (p.addAll ((keysAt ty data offset load).take i)) at ht
  have hmem : ty.cast x ∈ (p.addAll ((keysAt ty data offset load).take i)).keys ↔
      ty.cast x ∈ p.keys := by
    simp [hnew]
  refine (ht.callBool_add hset ?_ ?_ ?_ _).mono fun r hr => ?_
  · rw [Phase.stale_addAll]
    exact hstale _ hkey
  · intro hb hin
    exact hunique hb _ hkey (hmem.mp hin)
  · intro hcalm
    refine lt_of_le_of_lt (Finset.card_le_card ?_) (hsmall hcalm)
    rw [Phase.keys_addAll]
    refine Finset.union_subset_union_right fun key hin => ?_
    exact List.mem_toFinset.mpr (List.mem_of_mem_take (List.mem_toFinset.mp hin))
  · exact ⟨hr.1.trans hmem.not, hr.2⟩

theorem Tracks.testRemove_ensures (h : Tracks c calm s p) (hnot : c.type ≠ .index)
    (hlen : load ≤ data.length) (hnodup : (keysAt ty data 0 load).Nodup)
    (hroom : calm → (∀ key ∈ keysAt ty data 0 load, key ∈ p.keys) ∨
      p.Roomy ∧ ∀ key ∈ keysAt ty data 0 load, key ∉ p.keys) :
    Exec.Ensures (testRemove ty c fuel data load s)
      (fun r => (r.1 = true ↔ ∀ key ∈ keysAt ty data 0 load, key ∈ p.keys) ∧
        Tracks c calm r.2 (p.removeAll (keysAt ty data 0 load))) (Late calm) := by
  rw [testRemove, dif_pos hnot]
  refine testEach_ensures (fun key => key ∈ p.keys) h (by omega) fun i x t hi hx ht => ?_
  have hkey : ty.cast x ∈ keysAt ty data 0 load := cast_mem_keysAt hi hx
  have hnew := keysAt_notMem_take hnodup hi hx
  change Tracks c calm t (p.removeAll ((keysAt ty data 0 load).take i)) at ht
  have hmem : ty.cast x ∈ (p.removeAll ((keysAt ty data 0 load).take i)).keys ↔
      ty.cast x ∈ p.keys := by
    simp [hnew]
  refine (ht.callBool_remove hset hnot fun hcalm => ?_).mono fun r hr => ?_
  · rcases hroom hcalm with hin | ⟨hroomy, hout⟩
    · exact .inl (hmem.mpr (hin _ hkey))
    · rw [Phase.removeAll_of_disjoint fun key hmem => hout key (List.mem_of_mem_take hmem)]
      exact .inr hroomy
  · exact ⟨hr.1.trans hmem, hr.2⟩

/-- `for (i = load - 1; i >= 0; i--)`. -/
theorem Tracks.containsDown (h : Tracks c calm s p) (hlen : offset + load ≤ data.length)
    (hroom : calm → p.Roomy ∨ ∀ key ∈ keysAt ty data offset load, key ∈ p.keys) (b : Bool) :
    Exec.Ensures (forDown (fun i b => do
        let x ← wordAt data (offset + i)
        let (ret, _) ← callBool c fuel (.contains (ty.cast x)) s
        .ok (b && ret)) load b)
      (fun r => r = true ↔ b = true ∧ ∀ key ∈ keysAt ty data offset load, key ∈ p.keys)
      (Late calm) := by
  induction load generalizing b with
  | zero => simp [forDown, keysAt]
  | succ n ih =>
    have hlt : offset + n < data.length := by omega
    obtain ⟨x, hx, hword⟩ := exists_wordAt hlt
    have hsplit : keysAt ty data offset (n + 1) = keysAt ty data offset n ++ [ty.cast x] := by
      have htake : (keysAt ty data offset (n + 1)).take (n + 1) =
          (keysAt ty data offset (n + 1)).take n ++ [ty.cast x] := keysAt_take n.lt_succ_self hx
      have hshort : (keysAt ty data offset (n + 1)).take n = keysAt ty data offset n := by
        rw [keysAt, ← List.map_take, List.take_take, min_eq_left n.le_succ, keysAt]
      rwa [keysAt_take_load, hshort] at htake
    rw [hsplit] at hroom
    simp only [forDown, hword, Exec.ok_bind, bind_assoc]
    refine (h.callBool_contains hset fun hcalm => ?_).bind fun r hr => ?_
    · rcases hroom hcalm with hroomy | hin
      · exact .inr hroomy
      · exact .inl (hin _ (by simp))
    · refine (ih (by omega) (fun hcalm => ?_) (b && r.1)).mono fun r' hr' => ?_
      · exact (hroom hcalm).imp_right fun hin key hkey => hin key (by simp [hkey])
      · rw [hr', hsplit, List.forall_mem_append, List.forall_mem_singleton, Bool.and_eq_true, hr.1]
        exact ⟨fun h => ⟨h.1.1, h.2, h.1.2⟩, fun h => ⟨⟨h.1, h.2.2⟩, h.2.1⟩⟩

/-- `TestContains` looks at the keys, in either direction, unless it is to go
through none of them in reverse. -/
theorem Tracks.testContains_ensures (h : Tracks c calm s p) (hlen : offset + load ≤ data.length)
    (hsize : data.length < 2 ^ 32) (bReverse : Bool) (hload : bReverse = true → load ≠ 0)
    (hroom : calm → p.Roomy ∨ ∀ key ∈ keysAt ty data offset load, key ∈ p.keys) :
    Exec.Ensures (testContains ty c fuel data offset load bReverse s)
      (fun b => b = true ↔ ∀ key ∈ keysAt ty data offset load, key ∈ p.keys) (Late calm) := by
  cases bReverse with
  | true =>
    have hstart : (load + (2 ^ 32 - 1)) % 2 ^ 32 + 1 = load := by
      have := hload rfl
      omega
    rw [testContains, if_pos rfl, hstart]
    exact (h.containsDown hset hlen hroom true).mono fun b hb => by simpa using hb
  | false =>
    have heach : Exec.Ensures (testEach c fuel (fun x _ => .contains (ty.cast x)) data offset load s)
        (fun r => (r.1 = true ↔ ∀ key ∈ keysAt ty data offset load, key ∈ p.keys) ∧
          Tracks c calm r.2 ((keysAt ty data offset load).foldl (fun p _ => p) p)) (Late calm) := by
      refine testEach_ensures (fun key => key ∈ p.keys) h hlen fun i x t hi hx ht => ?_
      rw [List.foldl_fixed] at ht ⊢
      refine ht.callBool_contains hset fun hcalm => (hroom hcalm).symm.imp_left fun hin => ?_
      exact hin _ (cast_mem_keysAt hi hx)
    exact heach.bind fun r hr => hr.1

omit hset [DecidableEq K] in
/-- In reverse the first index of no words at all is beyond the vector. -/
theorem testContains_none [DecidableEq K] (hsize : data.length < 2 ^ 32) :
    testContains ty c fuel data offset 0 true s = .error .outOfBounds := by
  have hout : wordAt data (offset + (2 ^ 32 - 1)) = .error .outOfBounds := by
    rw [wordAt, List.getElem?_eq_none (by omega)]
  have hstart : (0 + (2 ^ 32 - 1)) % 2 ^ 32 + 1 = (2 ^ 32 - 1) + 1 := rfl
  rw [testContains, if_pos rfl, hstart]
  generalize 2 ^ 32 - 1 = n at hout
  rw [forDown, hout]
  rfl

end Loops

section Sums

variable {width : ℕ}

theorem held_eq_map (hnot : c.type ≠ .index) :
    s.entriesHeld c = (s.occupiedBelow s.tags.size).map s.entries.cell := by
  have hbelow (n : ℕ) : content (Finset.range n) (s.slots c) =
      (s.occupiedBelow n).map s.entries.cell := by
    induction n with
    | zero => rfl
    | succ n ih =>
      rw [content, Finset.sum_range_succ, ← content, ih]
      by_cases hocc : s.Occupied n
      · have hlive : s.slots c n = .live (s.entries.cell n) := by
          refine slots_eq_live.mpr ⟨hocc.1, hocc.2, ?_⟩
          rw [record, ref, if_neg hnot]
        rw [occupiedBelow_succ hocc, hlive, List.map_append, ← Multiset.coe_add]
        rfl
      · have hfree : ∀ e, s.slots c n ≠ .live e := fun e he => hocc (occupied_iff.mpr ⟨e, he⟩)
        rw [occupiedBelow_skip n.le_succ fun i hi hlt => by
          rwa [show i = n by omega], held_eq_zero hfree, add_zero]
  exact hbelow _

/-- A range-based `for` comes to every key once. -/
theorem Tracks.visited (h : Tracks c calm s p) (hset : Setting c fuel calm) (hw : IsWidth width) :
    ∃ entries, s.visited c width fuel = .ok entries ∧
      ((entries.map Entry.key : List K) : Multiset K) = p.keys.val := by
  have hfuel : s.tags.size < fuel := by
    have hmax := h.geometry.isCapacity.le_max
    rw [h.size_eq]
    exact hmax.trans_lt hset.fuel
  rw [← h.keys]
  by_cases ht : c.type = .index
  · have hcount : s.count ≤ s.tags.size := by
      rw [h.toInv.count_eq]
      exact card_content_le.trans (Finset.card_range _).le
    refine ⟨_, h.visited_index ht width (hcount.trans_lt hfuel), ?_⟩
    rw [h.entriesHeld_index ht]
    rfl
  · refine ⟨_, h.visited_eq_map ht hw hfuel, ?_⟩
    rw [held_eq_map ht]
    rfl

end Sums

end BenchHash

end SimdHash
