import SimdHash.Ownership

/-! Containers from their construction to their destruction: what the calls in
between, and the destructor, leave allocated. -/

namespace SimdHash

open Transition

/-- The calls that may change the size of the table. -/
def Op.Sizes {K V : Type} {t : ContainerType} : Op K V t → Prop
  | .add .. => True
  | .addOrUpdate .. => True
  | .tryAdd .. => True
  | .resize _ => True
  | .clear _ => True
  | _ => False

namespace Core

variable {K V : Type} [DecidableEq K] {c : Template K} {s t : Core K V} {fuel : ℕ}

/-- `Add` looks for a slot first, by either probe loop. -/
theorem add_eq_bind (bUnique bUpdate : Bool) (key : K) (value : V) :
    ∃ f : Probed → Exec ((Bool × ℕ) × Core K V),
      s.add c fuel bUnique bUpdate key value =
        ((if bUnique then s.probeUnique c fuel key else s.probeChecked c fuel key) >>= f) ∧
      (∀ i, f (.free i) = (s.insert c fuel i key value >>= fun t => .ok ((true, s.count), t))) ∧
      ∀ i, f (.found i) =
        ((if bUpdate then s.update c i value else .ok s) >>= fun s => .ok ((false, i), s)) := by
  cases bUnique with
  | true => exact ⟨_, rfl, fun _ => rfl, fun _ => by cases bUpdate <;> rfl⟩
  | false => exact ⟨_, rfl, fun _ => rfl, fun _ => by cases bUpdate <;> rfl⟩

/-- It returns `true` exactly if that is a free slot. -/
theorem exists_probed {bUnique bUpdate : Bool} {key : K} {value : V} {out : Bool × ℕ}
    (hadd : s.add c fuel bUnique bUpdate key value = .ok (out, t)) :
    ∃ probed, (if bUnique then s.probeUnique c fuel key else s.probeChecked c fuel key) =
      .ok probed ∧ (out.1 = true ↔ ∃ i, probed = .free i) := by
  obtain ⟨f, hbind, hfree, hfound⟩ := @add_eq_bind _ _ _ c s fuel bUnique bUpdate key value
  rw [hbind] at hadd
  obtain ⟨probed, hprobe, hrest⟩ := Exec.bind_eq_ok.mp hadd
  refine ⟨probed, hprobe, ?_⟩
  cases probed with
  | free i =>
    rw [hfree] at hrest
    obtain ⟨u, -, hu⟩ := Exec.bind_eq_ok.mp hrest
    simp only [Except.ok.injEq, Prod.mk.injEq] at hu
    simp [← hu.1]
  | found i =>
    rw [hfound] at hrest
    obtain ⟨u, -, hu⟩ := Exec.bind_eq_ok.mp hrest
    simp only [Except.ok.injEq, Prod.mk.injEq] at hu
    simp [← hu.1]

omit [DecidableEq K] in
theorem Inv.clear_value (h : s.Inv c) {size : ℕ} (hrun : s.clear c fuel size = .ok t) :
    t.capacity = (if size = 0 then s.capacity else adjustCapacity c.mode size) ∧
      (c.bDebug = true → size = 0 ∨ s.capacity ≤ adjustCapacity c.mode size) := by
  rw [h.clear_eq size] at hrun
  obtain ⟨_, hassert, hcleared⟩ := Exec.bind_eq_ok.mp hrun
  constructor
  · rw [← Except.ok.inj hcleared, cleared_capacity]
  · intro hdebug
    exact or_iff_not_imp_left.mpr (by simpa [Exec.assert, hdebug] using hassert)

omit [DecidableEq K] in
theorem Outcome.capacity_eq {op : Op K V c.type} {ret : Result V} (h : s.Inv c) (hop : ¬ op.Sizes)
    (hout : Outcome c s op ret t) : t.capacity = s.capacity := by
  cases hout with
  | add hr => exact absurd trivial hop
  | addOrUpdate hr => exact absurd trivial hop
  | tryAdd hr => exact absurd trivial hop
  | resize hr => exact absurd trivial hop
  | clear hinv hcount hclean hfactor hcap => exact absurd trivial hop
  | remove hr => cases hr <;> rfl
  | rehash hr =>
    rw [hr.capacity, adjustCapacity_of_le (Nat.zero_le _)]
    exact max_eq_left h.geometry.isCapacity.min_le
  | contains hr => rfl
  | foundValue hmet hlive hkey => rfl
  | noValue hunmet => rfl
  | tryGetIndex hr => rfl
  | setMaxLoadFactor => rfl

/-- With the assertions, no call makes a container smaller. -/
theorem Call.capacity_mono {op : Op K V c.type} {out : Result V × ℕ} (hdebug : c.bDebug = true)
    (h : s.Inv c) (hcall : Call c s op out t) : s.capacity ≤ t.capacity := by
  have hadded {bUnique bUpdate ret : Bool} {key : K} {value : V} {index : ℕ}
      (hr : Added c s bUnique bUpdate key value ((ret, index), t)) : s.capacity ≤ t.capacity := by
    cases hr with
    | inserted hslot ht =>
      rw [ht.capacity]
      split_ifs
      · exact le_max_left _ _
      · exact le_rfl
    | found hchecked hslot hlive hkey => split_ifs <;> exact le_rfl
  have hclear (size : ℕ) (hop : op = .clear size) : s.capacity ≤ t.capacity := by
    subst hop
    obtain ⟨fuel, hstep, -⟩ := hcall
    obtain ⟨u, hu, hret⟩ := Exec.bind_eq_ok.mp hstep
    obtain rfl : u = t := (Prod.mk.inj (Except.ok.inj hret)).2
    obtain ⟨hcap, hsize⟩ := h.clear_value hu
    rw [hcap]
    split_ifs with hzero
    · exact le_rfl
    · exact (hsize hdebug).resolve_left hzero
  obtain ⟨hout, -⟩ := hcall.outcome h
  obtain ⟨ret, count⟩ := out
  cases hout with
  | add hr => exact hadded hr
  | addOrUpdate hr => exact hadded hr
  | tryAdd hr => exact hadded hr
  | remove hr => cases hr <;> exact le_rfl
  | contains hr => exact le_rfl
  | foundValue hmet hlive hkey => exact le_rfl
  | noValue hunmet => exact le_rfl
  | tryGetIndex hr => exact le_rfl
  | resize hr => exact hr.capacity ▸ le_max_left _ _
  | rehash hr => exact hr.capacity ▸ le_max_left _ _
  | clear hinv hcount hclean hfactor hcap => exact hclear _ rfl
  | setMaxLoadFactor => exact le_rfl

end Core

namespace PageBlocks

variable {σ : Type} {p : PageBlocks} {n : ℕ} {h : Heap}

/-- Page 0 is the first that is freed. -/
theorem freePages_gone (hpage : ∀ i < n, ∃ a, p.page i = some a) (hn : 0 < n)
    (hgone : ∀ a ∈ held p.page n, a ∉ h.live) :
    p.freePages n h = (.error .badFree : Step σ Heap) := by
  induction n with
  | zero => exact absurd hn (lt_irrefl 0)
  | succ n ih =>
    have hrest : ∀ a ∈ held p.page n, a ∉ h.live := fun a ha => hgone a (by simp [held, ha])
    rcases Nat.eq_zero_or_pos n with hz | hpos
    · obtain ⟨a, ha⟩ := hpage n (Nat.lt_succ_self n)
      have hfree : h.free a = (.error .badFree : Step σ Heap) :=
        Heap.free_of_notMem (hgone a (by simp [held, ha]))
      subst hz
      simp [freePages, ha, hfree, bind, Except.bind]
    · have hfirst := ih (fun i hi => hpage i (hi.trans (Nat.lt_succ_self n))) hpos hrest
      simp [freePages, hfirst, bind, Except.bind]

theorem Full.destroy_gone {table : ℕ} (hp : p.Full) (htable : p.table = some table)
    (hgone : ∀ a ∈ p.blocks, a ∉ h.live) : p.destroy h = (.error .badFree : Step σ Heap) := by
  have hpages : ∀ a ∈ held p.page (p.size / pageSize), a ∉ h.live :=
    fun a ha => hgone a (by simp [blocks, ha])
  simp only [destroy, htable]
  rcases Nat.eq_zero_or_pos (p.size / pageSize) with hz | hpos
  · have hfree : h.free table = (.error .badFree : Step σ Heap) :=
      Heap.free_of_notMem (hgone table (by simp [blocks, htable]))
    rw [hz]
    exact hfree
  · rw [freePages_gone hp.page hpos hpages]
    rfl

end PageBlocks

namespace Blocks

variable {K V : Type} [DecidableEq K] {c : Template K} {s t : Core K V} {b : Blocks} {h : Heap}
  {rest : Multiset ℕ} {fuel capacity : ℕ}

/-- The blocks of pages that a smaller capacity has no use for. -/
def shrunk (s t : Core K V) : ℕ := s.capacity / pageSize - t.capacity / pageSize

theorem Owned.add_leaves (howned : Owned c s.capacity b h rest) (hs : s.Inv c) (bUnique bUpdate : Bool)
    (key : K) (value : V) :
    Heap.Leaves (b.add c s h fuel bUnique key)
      (fun r => ∀ out t, s.add c fuel bUnique bUpdate key value = .ok (out, t) →
        Kept c t.capacity (shrunk s t) rest r.1 r.2)
      (Broken c s.capacity h.room rest) := by
  have hprobed {out : Bool × ℕ} {t : Core K V} {probed : Probed}
      (hadd : s.add c fuel bUnique bUpdate key value = .ok (out, t))
      (hprobe : (if bUnique then s.probeUnique c fuel key else s.probeChecked c fuel key) =
        .ok probed) : out.1 = true ↔ ∃ i, probed = .free i := by
    obtain ⟨probed', hprobe', hret⟩ := Core.exists_probed hadd
    rwa [Except.ok.inj (hprobe.symm.trans hprobe')]
  rw [add]
  cases hprobe : if bUnique then s.probeUnique c fuel key else s.probeChecked c fuel key with
  | error e => trivial
  | ok probed =>
    cases probed with
    | found realIndex =>
      intro out t hadd
      have hadded : Core.Added c s bUnique bUpdate key value (out, t) := hs.add_ensures.value hadd
      cases hadded with
      | inserted hslot ht => simpa using hprobed hadd hprobe
      | found hchecked hslot hlive hkey =>
        split_ifs
        · exact howned.kept
        · exact howned.kept
    | free entryIndex =>
      refine (howned.insert_leaves hs rfl).imp (fun r hr out t hadd => ?_) fun _ _ hb => hb
      have hadded : Core.Added c s bUnique bUpdate key value (out, t) := hs.add_ensures.value hadd
      cases hadded with
      | inserted hslot ht => simpa only [shrunk, ht.capacity] using hr
      | found hchecked hslot hlive hkey => simpa using hprobed hadd hprobe

/-- A call of a container keeps what is owned, but for the pages that `Clear`
gives up, and frees nothing else. -/
theorem Owned.step_leaves (howned : Owned c s.capacity b h rest) (hs : s.Inv c) (fuel : ℕ)
    (op : Op K V c.type) :
    Heap.Leaves (b.step c s h fuel op)
      (fun r => ∀ out t, Core.step c fuel s op = .ok (out, t) →
        Kept c t.capacity (shrunk s t) rest r.1 r.2)
      (Broken c s.capacity h.room rest) := by
  have hadd {bUnique bUpdate : Bool} {key : K} {value : V}
      {f : (Bool × ℕ) × Core K V → Exec (Result V × Core K V)}
      (hf : ∀ r out t, f r = .ok (out, t) → r.2 = t) :
      Heap.Leaves (b.add c s h fuel bUnique key)
        (fun r => ∀ out t, (s.add c fuel bUnique bUpdate key value >>= f) = .ok (out, t) →
          Kept c t.capacity (shrunk s t) rest r.1 r.2)
        (Broken c s.capacity h.room rest) := by
    refine (howned.add_leaves hs bUnique bUpdate key value).imp (fun r hr out t hrun => ?_)
      fun _ _ hb => hb
    obtain ⟨⟨ret, u⟩, hu, hout⟩ := Exec.bind_eq_ok.mp hrun
    exact hf _ _ _ hout ▸ hr _ _ hu
  have hkept {t : Core K V} {b : Blocks} {h : Heap} (hcap : t.capacity = s.capacity)
      (howned : Owned c s.capacity b h rest) : Kept c t.capacity (shrunk s t) rest b h := by
    rw [shrunk, hcap]
    exact howned.kept
  have hsame {ret : Result V} {t : Core K V} (hop : ¬ op.Sizes)
      (hrun : Core.step c fuel s op = .ok (ret, t)) : t.capacity = s.capacity :=
    ((hs.step_ensures op).value hrun).capacity_eq hs hop
  cases op with
  | add bUnique key value => exact hadd fun r out t hr => (Prod.mk.inj (Except.ok.inj hr)).2
  | addOrUpdate key value offered => exact hadd fun r out t hr => (Prod.mk.inj (Except.ok.inj hr)).2
  | tryAdd key value offered => exact hadd fun r out t hr => (Prod.mk.inj (Except.ok.inj hr)).2
  | resize size =>
    refine (howned.resize_leaves (next_capacity hs size)).imp ?_ fun _ _ hb => hb
    intro r hr ret t hrun
    obtain ⟨u, hu, hret⟩ := Exec.bind_eq_ok.mp hrun
    obtain rfl : u = t := (Prod.mk.inj (Except.ok.inj hret)).2
    have ht : Core.Resized c s size u := (hs.resize_ensures size).value hu
    rwa [← ht.capacity] at hr
  | clear size =>
    refine (howned.clear_leaves rfl).imp ?_ fun _ _ hb => hb
    intro r hr ret t hrun
    obtain ⟨u, hu, hret⟩ := Exec.bind_eq_ok.mp hrun
    obtain rfl : u = t := (Prod.mk.inj (Except.ok.inj hret)).2
    rwa [← (hs.clear_value hu).1] at hr
  | rehash offered =>
    refine howned.rehash_leaves.imp ?_ fun _ _ hb => hb
    intro r hr ret t hrun
    exact hkept (hsame id hrun) hr
  | remove key offered => exact fun ret t hrun => hkept (hsame id hrun) howned
  | contains key => exact fun ret t hrun => hkept (hsame id hrun) howned
  | tryGetValue key offered => exact fun ret t hrun => hkept (hsame id hrun) howned
  | tryGetIndex key offered => exact fun ret t hrun => hkept (hsame id hrun) howned
  | setMaxLoadFactor mlf => exact fun ret t hrun => hkept (hsame id hrun) howned

/-- A call, with what it does to the pointers of the container and to the heap. -/
def HeapCall (c : Template K) (x : Core K V × Blocks × Heap) (op : Op K V c.type)
    (out : Result V × ℕ) (y : Core K V × Blocks × Heap) : Prop :=
  ∃ fuel, Core.step c fuel x.1 op = .ok (out.1, y.1) ∧ out.2 = y.1.count ∧
    x.2.1.step c x.1 x.2.2 fuel op = .ok y.2

omit [DecidableEq K] in
/-- The constructor has returned, with the heap as it was before it. -/
def HeapConstructed (c : Template K) (h : Heap) (x : Core K V × Blocks × Heap) : Prop :=
  ∃ fuel memory, Core.construct c fuel memory = .ok x.1 ∧ Blocks.construct c h memory = .ok x.2

/-- What calls on a new container leave of it and of the heap. -/
def heapAfter (c : Template K) (fuel : ℕ) (memory : Memory K V) (h : Heap)
    (ops : List (Op K V c.type)) : Option (Core K V × Blocks × Heap) := do
  let s ← (Core.construct c fuel memory).toOption
  let r ← (Blocks.construct c h memory).toOption
  ops.foldlM (fun x op => do
    let (_, t) ← (Core.step c fuel x.1 op).toOption
    let r ← (x.2.1.step c x.1 x.2.2 fuel op).toOption
    some (t, r)) (s, r)

/-- What was allocated in `h` still is in `h'`, with `n` blocks that nothing frees. -/
def Lost (n : ℕ) (h h' : Heap) : Prop := h.live ⊆ h'.live ∧ h'.live.card = h.live.card + n

variable {x y : Core K V × Blocks × Heap} {op : Op K V c.type} {out : Result V × ℕ} {n : ℕ}
  {trace : List (Op K V c.type × Result V × ℕ)}

omit [DecidableEq K] in
theorem toOption_eq_some {ε α : Type} {x : Except ε α} {a : α} (h : x.toOption = some a) :
    x = .ok a := by
  cases x <;> simp_all [Except.toOption]

theorem heapAfter_run {memory : Memory K V} {ops : List (Op K V c.type)}
    (hafter : heapAfter c fuel memory h ops = some y) :
    ∃ x trace, HeapConstructed c h x ∧ Run (HeapCall c) x trace y ∧ trace.map Prod.fst = ops := by
  have hcalls (x : Core K V × Blocks × Heap) (hfold : ops.foldlM (fun x op => do
      let (_, t) ← (Core.step c fuel x.1 op).toOption
      let r ← (x.2.1.step c x.1 x.2.2 fuel op).toOption
      some (t, r)) x = some y) :
      ∃ trace, Run (HeapCall c) x trace y ∧ trace.map Prod.fst = ops := by
    clear hafter
    induction ops generalizing x with
    | nil =>
      cases hfold
      exact ⟨[], .nil _, rfl⟩
    | cons op rest ih =>
      rw [List.foldlM_cons] at hfold
      obtain ⟨z, hz, hrest⟩ := Option.bind_eq_some_iff.mp hfold
      obtain ⟨⟨ret, t⟩, hcore, hz⟩ := Option.bind_eq_some_iff.mp hz
      obtain ⟨r, hblocks, hz⟩ := Option.bind_eq_some_iff.mp hz
      cases hz
      obtain ⟨trace, hrun, hops⟩ := ih _ hrest
      exact ⟨(op, ret, t.count) :: trace,
        .cons ⟨fuel, toOption_eq_some hcore, rfl, toOption_eq_some hblocks⟩ hrun, by simp [hops]⟩
  obtain ⟨s, hcore, hafter⟩ := Option.bind_eq_some_iff.mp hafter
  obtain ⟨r, hblocks, hafter⟩ := Option.bind_eq_some_iff.mp hafter
  obtain ⟨trace, hrun, hops⟩ := hcalls _ hafter
  exact ⟨(s, r), trace,
    ⟨fuel, memory, toOption_eq_some hcore, toOption_eq_some hblocks⟩, hrun, hops⟩

omit [DecidableEq K] in
theorem unallocated_owned (c : Template K) (h : Heap) : Owned c 0 unallocated h h.live.val := by
  refine ⟨⟨by simp [unallocated], by simp [unallocated]⟩,
    ⟨by simp [unallocated], by simp [unallocated]⟩, ?_, ?_⟩
  · rw [Blocks.storage]
    split_ifs <;> rfl
  · simp [all, unallocated, PageBlocks.blocks, PageBlocks.held]

omit [DecidableEq K] in
theorem HeapConstructed.owned (hstart : HeapConstructed c h x) :
    x.1.Inv c ∧ Owned c x.1.capacity x.2.1 x.2.2 h.live.val := by
  obtain ⟨fuel, memory, hcore, hblocks⟩ := hstart
  obtain ⟨hinv, -, -, hcap, -⟩ := (Core.construct_ensures memory).value hcore
  have hleaves := (unallocated_owned c h).resize_leaves (s := Core.unallocated memory)
    (next_unallocated c.mode minSize 0)
  have hrun : unallocated.resize c (Core.unallocated memory) h minSize = .ok x.2 := hblocks
  rw [hrun, adjustCapacity_of_le le_rfl] at hleaves
  obtain ⟨lost, hcard, howned⟩ := hleaves
  obtain rfl : lost = 0 := Multiset.card_eq_zero.mp (hcard.trans (by decide))
  exact ⟨hinv, by simpa only [hcap, zero_add] using howned⟩

theorem HeapCall.inv (hcall : HeapCall c x op out y) (hs : x.1.Inv c) : y.1.Inv c := by
  obtain ⟨fuel, hcore, hcount, -⟩ := hcall
  have hcall : Core.Call c x.1 op out y.1 := ⟨fuel, hcore, hcount⟩
  exact hcall.inv hs

theorem HeapCall.kept (hcall : HeapCall c x op out y) (hs : x.1.Inv c)
    (howned : Owned c x.1.capacity x.2.1 x.2.2 rest) :
    Kept c y.1.capacity (shrunk x.1 y.1) rest y.2.1 y.2.2 := by
  obtain ⟨fuel, hcore, -, hblocks⟩ := hcall
  have hleaves := howned.step_leaves hs fuel op
  rw [hblocks] at hleaves
  exact hleaves _ _ hcore

/-- What the calls of a run give up is lost, and nothing else. -/
theorem spends_kept (hrun : Spends (HeapCall c) (fun x y => shrunk x.1 y.1) x trace n y)
    (hs : x.1.Inv c) (howned : Owned c x.1.capacity x.2.1 x.2.2 rest) :
    y.1.Inv c ∧ Kept c y.1.capacity n rest y.2.1 y.2.2 := by
  induction hrun generalizing rest with
  | nil x => exact ⟨hs, 0, rfl, by simpa using howned⟩
  | cons hcall _ ih =>
    obtain ⟨lost, hcard, howned'⟩ := hcall.kept hs howned
    obtain ⟨hinv, lost', hcard', howned''⟩ := ih (hcall.inv hs) howned'
    refine ⟨hinv, lost' + lost, ?_, ?_⟩
    · rw [Multiset.card_add, hcard, hcard', add_comm]
    · rwa [add_assoc]

/-- With its assertions, no call gives up a page. -/
theorem HeapCall.shrunk_eq (hdebug : c.bDebug = true) (hcall : HeapCall c x op out y)
    (hs : x.1.Inv c) : shrunk x.1 y.1 = 0 := by
  obtain ⟨fuel, hcore, hcount, -⟩ := hcall
  have hcall : Core.Call c x.1 op out y.1 := ⟨fuel, hcore, hcount⟩
  exact Nat.sub_eq_zero_of_le (Nat.div_le_div_right (hcall.capacity_mono hdebug hs))

theorem spends_zero (hdebug : c.bDebug = true)
    (hrun : Spends (HeapCall c) (fun x y => shrunk x.1 y.1) x trace n y) (hs : x.1.Inv c) :
    n = 0 := by
  induction hrun with
  | nil x => rfl
  | cons hcall _ ih => rw [hcall.shrunk_eq hdebug hs, ih (hcall.inv hs)]

omit [DecidableEq K] in
theorem Owned.destroy_lost {h₀ : Heap} {lost : Multiset ℕ}
    (howned : Owned c capacity b h (lost + h₀.live.val)) :
    ∃ h', b.destroy h = (.ok h' : Step Blocks Heap) ∧ Lost lost.card h₀ h' := by
  obtain ⟨h', hrun, hlive⟩ := howned.destroy_live
  refine ⟨h', hrun, ?_, ?_⟩
  · rw [← Finset.val_le_iff, hlive]
    exact Multiset.le_add_left _ _
  · rw [← Finset.card_val, hlive, Multiset.card_add, Finset.card_val, add_comm]

/-- A container that has been constructed and called is destroyed with nothing
freed twice, and nothing lost but the pages given up by a `Clear` to a smaller
size, which its assertions exclude. No call frees what is not allocated, and one
that an exception leaves loses no more than it could allocate. -/
theorem lifetime_frees_what_is_owned (hstart : HeapConstructed c h x)
    (hrun : Spends (HeapCall c) (fun x y => shrunk x.1 y.1) x trace n y) :
    (∃ h', y.2.1.destroy y.2.2 = (.ok h' : Step Blocks Heap) ∧ Lost n h h') ∧
      (c.bDebug = true → n = 0) ∧
      ∀ fuel op, y.2.1.step c y.1 y.2.2 fuel op ≠ .error .badFree ∧
        ∀ b' h', y.2.1.step c y.1 y.2.2 fuel op = .error (.thrown b' h') →
          ∃ more h'', more ≤ y.2.2.room ∧ b'.destroy h' = (.ok h'' : Step Blocks Heap) ∧
            Lost (more + n) h h'' := by
  obtain ⟨hinv, howned⟩ := hstart.owned
  obtain ⟨hinv', lost, hcard, howned'⟩ := spends_kept hrun hinv howned
  refine ⟨?_, ?_, fun fuel op => ?_⟩
  · rw [← hcard]
    exact howned'.destroy_lost
  · exact fun hdebug => spends_zero hdebug hrun hinv
  · have hleaves := howned'.step_leaves hinv' fuel op
    constructor
    · intro hbad
      rw [hbad] at hleaves
      exact hleaves
    · intro b' h' hthrown
      rw [hthrown] at hleaves
      obtain ⟨more, hmore, howned''⟩ := hleaves
      rw [← add_assoc] at howned''
      obtain ⟨h'', hdestroy, hlost⟩ := howned''.destroy_lost
      rw [Multiset.card_add, hcard] at hlost
      exact ⟨more.card, h'', hmore, hdestroy, hlost⟩

/-- A key is added, and the table is cleared and doubled: nothing is left of it. -/
theorem lifetime_frees_what_is_owned_doubled :
    ∃ (y : Core ℕ ℕ × Blocks × Heap) (h' : Heap),
      heapAfter (Core.constantHash .map .fast false) 1 Core.zeroedMemory ⟨∅, 0, 10, by simp⟩
        [.add true 3 4, .clear 5000] = some y ∧
      y.2.1.destroy y.2.2 = (.ok h' : Step Blocks Heap) ∧ h'.live = ∅ := by
  have hsome : (heapAfter (Core.constantHash .map .fast false) 1 Core.zeroedMemory ⟨∅, 0, 10, by simp⟩
      [.add true 3 4, .clear 5000]).isSome = true := by
    decide +kernel
  obtain ⟨y, hy⟩ := Option.isSome_iff_exists.mp hsome
  obtain ⟨x, trace, hstart, hrun, -⟩ := heapAfter_run hy
  obtain ⟨n, hspends⟩ := hrun.exists_spends 
  obtain ⟨⟨h', hdestroy, hlost⟩, hzero, -⟩ := lifetime_frees_what_is_owned hstart hspends
  obtain ⟨-, hcard⟩ := hlost
  rw [hzero rfl] at hcard
  exact ⟨y, h', hy, hdestroy, Finset.card_eq_zero.mp hcard⟩

/-- What the implicit move constructor leaves of the container whose pointers it
gives to the new one. `TagArray` gives its pointer away; `EntryArray` has a
destructor and no move of its own, so that its pointer is copied. -/
def movedFrom (b : Blocks) : Blocks := { b with tags := none }

omit [DecidableEq K] in
theorem Owned.destroy_gone {h' : Heap} (howned : Owned c capacity b h rest) (hpos : pageSize ≤ capacity)
    (hgone : ∀ a ∈ b.entries.blocks + b.realIndex.blocks, a ∉ h'.live) :
    b.destroy h' = (.error .badFree : Step Blocks Heap) := by
  have hrealIndex : ∀ a ∈ b.realIndex.blocks, a ∉ h'.live :=
    fun a ha => hgone a (Multiset.mem_add.mpr (.inr ha))
  have hentries : ∀ a ∈ b.entries.blocks, a ∉ h'.live :=
    fun a ha => hgone a (Multiset.mem_add.mpr (.inl ha))
  have hpages : 0 < (b.storage c).size / pageSize :=
    howned.storage ▸ Nat.div_pos hpos (by decide)
  rw [destroy]
  cases htable : b.realIndex.table with
  | some table =>
    rw [howned.realIndex.destroy_gone htable hrealIndex]
    rfl
  | none =>
    have hkeep : b.realIndex.destroy h' = (.ok h' : Step Blocks Heap) := by
      simp [PageBlocks.destroy, htable]
    have ht : c.type ≠ .index := by
      intro ht
      obtain ⟨table, hsome⟩ := howned.realIndex.table (by simpa [Blocks.storage, ht] using hpages)
      simp [htable] at hsome
    obtain ⟨table, hsome⟩ := howned.entries.table (by simpa [Blocks.storage, ht] using hpages)
    rw [hkeep]
    show (b.entries.destroy h' >>= fun h => h.release b.tags) = _
    rw [howned.entries.destroy_gone hsome hentries]
    rfl

omit [DecidableEq K] in
/-- Two containers with the same pages are not both destroyed. -/
theorem Owned.destroy_twice {b' : Blocks} {rest' : Multiset ℕ} (howned : Owned c capacity b h rest)
    (howned' : Owned c capacity b' h rest') (hpos : pageSize ≤ capacity)
    (hentries : b'.entries = b.entries) (hrealIndex : b'.realIndex = b.realIndex) :
    (b.destroy h >>= fun h => b'.destroy h) = (.error .badFree : Step Blocks Heap) := by
  obtain ⟨h', hrun, hlive⟩ := howned.destroy_live
  have hgone : ∀ a ∈ b'.entries.blocks + b'.realIndex.blocks, a ∉ h'.live := by
    intro a ha hmem
    have hnodup := h.live.nodup
    rw [howned.live] at hnodup
    rw [← Finset.mem_val, hlive] at hmem
    refine Multiset.disjoint_left.mp (Multiset.disjoint_of_nodup_add hnodup) ?_ hmem
    rw [hentries, hrealIndex] at ha
    exact Multiset.mem_add.mpr (.inr ha)
  rw [hrun]
  exact howned'.destroy_gone hpos hgone

/-- Whatever calls a container has had, it cannot be moved: the pages are freed
by its destructor and by that of the container it is moved to, in either order. -/
theorem moved_pages_freed_twice (hstart : HeapConstructed c h x)
    (hrun : Run (HeapCall c) x trace y) :
    (y.2.1.destroy y.2.2 >>= fun h => y.2.1.movedFrom.destroy h) =
        (.error .badFree : Step Blocks Heap) ∧
      (y.2.1.movedFrom.destroy y.2.2 >>= fun h => y.2.1.destroy h) =
        (.error .badFree : Step Blocks Heap) := by
  obtain ⟨hinv, howned⟩ := hstart.owned
  obtain ⟨n, hspends⟩ := hrun.exists_spends 
  obtain ⟨hinv', lost, -, howned'⟩ := spends_kept hspends hinv howned
  have hpos : pageSize ≤ y.1.capacity := hinv'.geometry.isCapacity.min_le
  exact ⟨howned'.destroy_twice howned'.give_tags hpos rfl rfl,
    howned'.give_tags.destroy_twice howned' hpos rfl rfl⟩

theorem moved_pages_freed_twice_doubled :
    ∃ (y : Core ℕ ℕ × Blocks × Heap),
      heapAfter (Core.constantHash .index .fast false) 1 Core.zeroedMemory ⟨∅, 0, 10, by simp⟩
        [.add true 3 4, .resize 5000] = some y ∧
      (y.2.1.destroy y.2.2 >>= fun h => y.2.1.movedFrom.destroy h) =
        (.error .badFree : Step Blocks Heap) := by
  have hsome : (heapAfter (Core.constantHash .index .fast false) 1 Core.zeroedMemory
      ⟨∅, 0, 10, by simp⟩ [.add true 3 4, .resize 5000]).isSome = true := by
    decide +kernel
  obtain ⟨y, hy⟩ := Option.isSome_iff_exists.mp hsome
  obtain ⟨x, trace, hstart, hrun, -⟩ := heapAfter_run hy
  exact ⟨y, hy, (moved_pages_freed_twice hstart hrun).1⟩

end Blocks

end SimdHash
