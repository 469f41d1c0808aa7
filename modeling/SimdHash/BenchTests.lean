import SimdHash.BenchLoops

/-! The assertions of the benchmark's tests, over what the phases say of the
keys that are looked for, removed and added. -/

namespace SimdHash

namespace BenchHash

open SimdHash.Core OpenAddressing

/-- How a benchmark stops: late, or by a fault where it does not pass. -/
def Stopped (calm pass : Prop) (e : Fault) : Prop := Late calm e ∨ ¬ pass ∧ e ≠ .timeout

theorem Stopped.peaceful {pass : Prop} {e : Fault} (h : Stopped True pass e) : ¬ pass ∧ e ≠ .timeout := by
  rcases h with hlate | hfail
  · exact absurd trivial hlate.2
  · exact hfail

/-- The same, or by a division by a number that is zero. -/
def Halted (calm pass counted : Prop) (e : Fault) : Prop :=
  Stopped calm pass e ∨ ¬ counted ∧ e = .divisionByZero

theorem Halted.peaceful {pass counted : Prop} {e : Fault} (h : Halted True pass counted e) :
    ¬ (pass ∧ counted) ∧ e ≠ .timeout := by
  rcases h with hstop | ⟨hzero, rfl⟩
  · exact ⟨fun h => hstop.peaceful.1 h.1, hstop.peaceful.2⟩
  · exact ⟨fun h => hzero h.2, by simp⟩

section Checks

variable {α β : Type} {calm pass A : Prop} {Q : α → Prop} {R : β → Prop}

theorem stopped {x : Exec α} (h : Exec.Ensures x Q (Late calm)) :
    Exec.Ensures x Q (Stopped calm pass) := h.imp (fun _ ha => ha) fun _ he => .inl he

theorem halted {counted : Prop} {x : Exec α} (h : Exec.Ensures x Q (Stopped calm pass)) :
    Exec.Ensures x Q (Halted calm pass counted) := h.imp (fun _ ha => ha) fun _ he => .inl he

variable {σ : Type} {expected : Bool} {P : σ → Prop}

theorem ensures_check {b : Bool} (hb : b = true ↔ A) (hpass : pass → (A ↔ expected = true)) :
    Exec.Ensures (Exec.assert true (b = expected)) (fun _ => A ↔ expected = true)
      (Stopped calm pass) := by
  have hiff : b = expected ↔ (A ↔ expected = true) := by
    rw [← hb]
    exact Bool.eq_iff_iff
  refine (Exec.ensures_assert fun _ hne => .inr ⟨fun h => hne (hiff.mpr (hpass h)), by simp⟩).mono ?_
  exact fun _ heq => hiff.mp (heq rfl)

/-- An assertion may only fail where the benchmark does not pass. -/
theorem expect_ensures {x : Exec (Bool × σ)}
    (hx : Exec.Ensures x (fun r => (r.1 = true ↔ A) ∧ P r.2) (Late calm))
    (hpass : pass → (A ↔ expected = true)) :
    Exec.Ensures (expect expected x) P (Stopped calm pass) := by
  refine (stopped hx).bind fun r hr => ?_
  exact (ensures_check hr.1 hpass).bind fun _ _ => hr.2

theorem expectTest_ensures {x : Exec Bool}
    (hx : Exec.Ensures x (fun b => b = true ↔ A) (Late calm))
    (hpass : pass → (A ↔ expected = true)) :
    Exec.Ensures (expectTest expected x) (fun _ => A ↔ expected = true) (Stopped calm pass) :=
  (stopped hx).bind fun _ hb => ensures_check hb hpass

end Checks

variable {K : Type} {ty : KeyType K} {c : Template K} {s t : Core K K} {p : Phase K} {fuel : ℕ}
  {calm pass : Prop} {dataSet : List UInt64} {load : ℕ} {v : TestVectors}

section Vectors

/-- The vectors of a test: what they are drawn from and how long they are. -/
structure Sampled (dataSet : List UInt64) (load : ℕ) (v : TestVectors) : Prop where
  erase : v.eraseVector.Sublist (dataSet.take load)
  find : v.findVector.Sublist (dataSet.take load)
  add : v.addVector = v.eraseVector
  unknown : v.unknownVector.Sublist dataSet
  length_erase : v.eraseVector.length = load / 100
  length_find : v.findVector.length = load / 100
  length_unknown : v.unknownVector.length = load / 100

theorem makeTestVector_ensures (sampler : Sampler) :
    Exec.Ensures (makeTestVector sampler dataSet load (load / 100))
      (fun v => (load ≤ dataSet.length ∧ load / 100 ≤ testVectorSize) ∧ Sampled dataSet load v ∧
        v = sampled sampler dataSet load (load / 100))
      (fun e => ¬ (load ≤ dataSet.length ∧ load / 100 ≤ testVectorSize) ∧ e ≠ .timeout) := by
  refine (Exec.ensures_assert fun _ hlen => ⟨fun h => hlen h.1, by simp⟩).bind fun _ hlen => ?_
  refine (Exec.ensures_assert fun _ hsize => ⟨fun h => hsize h.2, by simp⟩).bind fun _ hsize => ?_
  have hload := hlen rfl
  have hdiv : load / 100 ≤ load := Nat.div_le_self load 100
  have herase : (sampled sampler dataSet load (load / 100)).eraseVector.length = load / 100 := by
    rw [sampled, sampler.length, List.length_take]
    omega
  refine ⟨⟨hload, hsize rfl⟩, ?_, rfl⟩
  refine
    { erase := sampler.sublist _ _ _
      find := sampler.sublist _ _ _
      add := (sampler.sublist _ _ _).eq_of_length ?_
      unknown := (sampler.sublist _ _ _).trans (List.drop_sublist _ _)
      length_erase := herase
      length_find := ?_
      length_unknown := ?_ }
  · have hmin := (congrArg (min (load / 100)) herase).trans (min_self _)
    exact (sampler.length _ _ _).trans (hmin.trans herase.symm)
  · rw [sampled, sampler.length, List.length_take]
    omega
  · rw [sampled, sampler.length, List.length_drop]
    omega

theorem keysAt_all {xs : List UInt64} {n : ℕ} (h : xs.length = n) :
    keysAt ty xs 0 n = xs.map ty.cast := by
  rw [keysAt, List.drop_zero, List.take_of_length_le h.le]

/-- The keys of the first words of the data set. -/
def loaded (ty : KeyType K) (dataSet : List UInt64) (load : ℕ) : List K := keysAt ty dataSet 0 load

theorem loaded_eq : loaded ty dataSet load = (dataSet.take load).map ty.cast := by
  rw [loaded, keysAt, List.drop_zero]

theorem mem_loaded_of_sublist {xs : List UInt64} (h : xs.Sublist (dataSet.take load)) {key : K}
    (hkey : key ∈ xs.map ty.cast) : key ∈ loaded ty dataSet load := by
  rw [loaded_eq]
  exact (h.map ty.cast).mem hkey

theorem nodup_of_sublist (hdistinct : (dataSet.map ty.cast).Nodup) {xs : List UInt64}
    (h : xs.Sublist dataSet) : (xs.map ty.cast).Nodup := hdistinct.sublist (h.map ty.cast)

/-- Keys of the data set tell its words apart. -/
theorem cast_mem_loaded (hdistinct : (dataSet.map ty.cast).Nodup) {x : UInt64} (hx : x ∈ dataSet) :
    ty.cast x ∈ loaded ty dataSet load ↔ x ∈ dataSet.take load := by
  rw [loaded_eq]
  refine ⟨fun hmem => ?_, List.mem_map_of_mem⟩
  obtain ⟨y, hy, heq⟩ := List.mem_map.mp hmem
  obtain rfl := List.inj_on_of_nodup_map hdistinct (List.mem_of_mem_take hy) hx heq
  exact hy

end Vectors

section Replace

variable [DecidableEq K] {β : Type} {R : β → Prop} {xs : List UInt64} {f : Core K K → Exec β}

omit [DecidableEq K] in
theorem not_forall_of_ne_nil {A : K → Prop} {keys : List K} (h : keys ≠ [])
    (hnot : ∀ key ∈ keys, ¬ A key) : ¬ ∀ key ∈ keys, A key := by
  intro hall
  obtain ⟨key, hkey⟩ := List.exists_mem_of_ne_nil keys h
  exact hnot key hkey (hall key hkey)

variable (hset : Setting c fuel calm)

include hset

/-- Keys are removed once. -/
theorem Tracks.eraseTwice (h : Tracks c calm s p) (hnot : c.type ≠ .index)
    (hlen : xs.length = load / 100) (hnodup : (xs.map ty.cast).Nodup)
    (hin : ∀ key ∈ xs.map ty.cast, key ∈ p.keys)
    (hroom : calm → p.graves + load / 100 ≤ 2 * (p.peak / 100)) (hpass : pass → xs.map ty.cast ≠ [])
    (hf : ∀ t, Tracks c calm t (p.removeAll (xs.map ty.cast)) →
      Exec.Ensures (f t) R (Stopped calm pass)) :
    Exec.Ensures (expect true (testRemove ty c fuel xs (load / 100) s) >>= fun s =>
      expect false (testRemove ty c fuel xs (load / 100) s) >>= f) R
      (Stopped calm pass) := by
  have hkeys : keysAt ty xs 0 (load / 100) = xs.map ty.cast := keysAt_all hlen
  have hgone : ∀ key ∈ xs.map ty.cast, key ∉ (p.removeAll (xs.map ty.cast)).keys := by
    intro key hkey
    simp only [Phase.keys_removeAll, Finset.mem_sdiff, List.mem_toFinset, not_and, not_not]
    exact fun _ => hkey
  have hfirst := h.testRemove_ensures hset hnot hlen.ge (hkeys ▸ hnodup) fun _ => .inl (hkeys ▸ hin)
  rw [hkeys] at hfirst
  refine (expect_ensures (P := fun t => Tracks c calm t (p.removeAll (xs.map ty.cast))) hfirst
    fun _ => iff_of_true hin rfl).bind fun t ht => ?_
  have hagain := ht.testRemove_ensures hset hnot hlen.ge (hkeys ▸ hnodup) fun hcalm => .inr ⟨?_, hkeys ▸ hgone⟩
  · rw [hkeys, Phase.removeAll_of_disjoint hgone] at hagain
    refine (expect_ensures (P := fun t => Tracks c calm t (p.removeAll (xs.map ty.cast))) hagain
      fun h => iff_of_false ?_ (by simp)).bind hf
    exact not_forall_of_ne_nil (hpass h) hgone
  · have hgraves : (p.removeAll (xs.map ty.cast)).graves ≤ p.graves + (xs.map ty.cast).length :=
      Phase.graves_removeAll_le
    have := hroom hcalm
    rw [List.length_map, hlen] at hgraves
    rw [Phase.Roomy, Phase.peak_removeAll]
    omega

/-- Keys that were removed are added once. -/
theorem Tracks.addTwice (h : Tracks c calm s p) (hlen : xs.length = load / 100)
    (hnodup : (xs.map ty.cast).Nodup) (hout : ∀ key ∈ xs.map ty.cast, key ∉ p.keys)
    (hsmall : calm → (p.keys ∪ (xs.map ty.cast).toFinset).card < 2 ^ 28)
    (hpass : pass → xs.map ty.cast ≠ []) (bUnique : Bool)
    (hf : ∀ t, Tracks c calm t (p.addAll (xs.map ty.cast)) →
      Exec.Ensures (f t) R (Stopped calm pass)) :
    Exec.Ensures (expect true (testAdd ty c fuel bUnique xs 0 (load / 100) s) >>= fun s =>
      expect false (testAdd ty c fuel false xs 0 (load / 100) s) >>= f) R
      (Stopped calm pass) := by
  have hkeys : keysAt ty xs 0 (load / 100) = xs.map ty.cast := keysAt_all hlen
  have hfresh : ∀ key ∈ xs.map ty.cast, key ∉ p.stale := fun key hkey hstale =>
    hout key hkey (p.stale_subset hstale)
  have hnow : ∀ key ∈ xs.map ty.cast, key ∈ (p.addAll (xs.map ty.cast)).keys := by
    intro key hkey
    rw [Phase.keys_addAll]
    exact Finset.mem_union_right _ (List.mem_toFinset.mpr hkey)
  have hbound : 0 + load / 100 ≤ xs.length := by omega
  have hunion : calm → ((p.addAll (xs.map ty.cast)).keys ∪ (xs.map ty.cast).toFinset).card < 2 ^ 28 := by
    rwa [Phase.keys_addAll, Finset.union_assoc, Finset.union_self]
  have hfirst := h.testAdd_ensures hset bUnique hbound (hkeys ▸ hnodup) (hkeys ▸ hfresh)
    (fun _ => hkeys ▸ hout) (hkeys ▸ hsmall)
  rw [hkeys] at hfirst
  refine (expect_ensures (P := fun t => Tracks c calm t (p.addAll (xs.map ty.cast))) hfirst
    fun _ => iff_of_true hout rfl).bind fun t ht => ?_
  have hagain := ht.testAdd_ensures hset false hbound (hkeys ▸ hnodup)
    (by rwa [hkeys, Phase.stale_addAll]) (fun hb => absurd hb (by simp)) (hkeys ▸ hunion)
  rw [hkeys, Phase.addAll_of_subset hnow] at hagain
  refine (expect_ensures (P := fun t => Tracks c calm t (p.addAll (xs.map ty.cast))) hagain
    fun h => iff_of_false ?_ (by simp)).bind hf
  exact not_forall_of_ne_nil (hpass h) fun key hkey => not_not.mpr (hnow key hkey)

theorem Tracks.expectContains (h : Tracks c calm s p) (hlen : xs.length = load / 100)
    (hsize : xs.length < 2 ^ 32) (hroom : calm → p.Roomy) (expected : Bool)
    (hpass : pass → ((∀ key ∈ xs.map ty.cast, key ∈ p.keys) ↔ expected = true)) :
    Exec.Ensures (expectTest expected (testContains ty c fuel xs 0 (load / 100) false s))
      (fun _ => (∀ key ∈ xs.map ty.cast, key ∈ p.keys) ↔ expected = true) (Stopped calm pass) := by
  have hkeys : keysAt ty xs 0 (load / 100) = xs.map ty.cast := keysAt_all hlen
  have hbound : 0 + load / 100 ≤ xs.length := by omega
  have htest : Exec.Ensures (testContains ty c fuel xs 0 (load / 100) false s) _ _ :=
    h.testContains_ensures hset hbound hsize false (by simp) fun hcalm => .inl (hroom hcalm)
  rw [hkeys] at htest
  exact expectTest_ensures htest hpass

end Replace

section Tests

variable [DecidableEq K]

theorem Phase.notMem_removeAll {keys : List K} : ∀ key ∈ keys, key ∉ (p.removeAll keys).keys := by
  intro key hkey
  rw [keys_removeAll, Finset.mem_sdiff, List.mem_toFinset]
  exact fun hmem => hmem.2 hkey

/-- Keys that are removed and added again. -/
def Phase.replaced (p : Phase K) (keys : List K) : Phase K := (p.removeAll keys).addAll keys

theorem Phase.keys_replaced {keys : List K} (h : ∀ key ∈ keys, key ∈ p.keys) :
    (p.replaced keys).keys = p.keys := by
  rw [replaced, keys_addAll, keys_removeAll, Finset.sdiff_union_self_eq_union]
  exact Finset.union_eq_left.mpr fun key hkey => h key (List.mem_toFinset.mp hkey)

theorem Phase.graves_replaced_le {keys : List K} :
    (p.replaced keys).graves ≤ p.graves + keys.length := by
  rw [replaced, graves_addAll]
  exact graves_removeAll_le

theorem Phase.le_peak_replaced {keys : List K} : p.peak ≤ (p.replaced keys).peak := by
  rw [replaced]
  exact peak_removeAll.ge.trans le_peak_addAll

/-- The first `load` words are in the object, of which none was removed. -/
structure Filled (ty : KeyType K) (calm : Prop) (dataSet : List UInt64) (load : ℕ) (p : Phase K) :
    Prop where
  keys : p.keys = (loaded ty dataSet load).toFinset
  graves : calm → p.graves ≤ 0
  length : load ≤ dataSet.length
  small : load < 2 ^ 28
  distinct : (dataSet.map ty.cast).Nodup

section Filled

variable (hp : Filled ty calm dataSet load p)

include hp

theorem Filled.card_eq : p.keys.card = load := by
  have hnodup : (loaded ty dataSet load).Nodup := by
    rw [loaded_eq]
    exact nodup_of_sublist hp.distinct (List.take_sublist _ _)
  rw [hp.keys, List.toFinset_card_of_nodup hnodup, loaded, length_keysAt]
  simpa using hp.length

theorem Filled.roomy {q : Phase K} (hgraves : calm → q.graves ≤ p.graves + 2 * (load / 100))
    (hpeak : p.peak ≤ q.peak) (hcalm : calm) : q.Roomy := by
  have hzero := hp.graves hcalm
  have hle := hgraves hcalm
  have hload : load ≤ p.peak := hp.card_eq.ge.trans p.card_le
  rw [Phase.Roomy]
  omega

theorem Filled.mem {xs : List UInt64} (hxs : xs.Sublist (dataSet.take load)) :
    ∀ key ∈ xs.map ty.cast, key ∈ p.keys := by
  intro key hkey
  rw [hp.keys, List.mem_toFinset]
  exact mem_loaded_of_sublist hxs hkey

theorem Filled.missing (hv : Sampled dataSet load v) (hunknown : ∃ x ∈ v.unknownVector, x ∉ dataSet.take load)
    {q : Phase K} (hq : q.keys ⊆ p.keys) :
    ¬ ∀ key ∈ v.unknownVector.map ty.cast, key ∈ q.keys := by
  intro hall
  obtain ⟨x, hx, hout⟩ := hunknown
  have hmem := hq (hall _ (List.mem_map_of_mem hx))
  rw [hp.keys, List.mem_toFinset, cast_mem_loaded hp.distinct (hv.unknown.mem hx)] at hmem
  exact hout hmem

end Filled

omit [DecidableEq K] in
theorem Sampled.ne_nil (hv : Sampled dataSet load v)
    (hunknown : ∃ x ∈ v.unknownVector, x ∉ dataSet.take load) : v.eraseVector.map ty.cast ≠ [] := by
  obtain ⟨x, hx, -⟩ := hunknown
  have hpos := List.length_pos_of_mem hx
  refine List.ne_nil_of_length_pos ?_
  rwa [List.length_map, hv.length_erase, ← hv.length_unknown]

variable (hset : Setting c fuel calm)

include hset

/-- After the replacements the keys are the same, and two removals for every
hundred of them have been made. -/
theorem Tracks.replaceKeys_ensures (h : Tracks c calm s p) (hp : Filled ty calm dataSet load p)
    (hv : Sampled dataSet load v) (hnot : c.type ≠ .index) (bUnique : Bool)
    (hpass : pass → ∃ x ∈ v.unknownVector, x ∉ dataSet.take load) :
    Exec.Ensures (replaceKeys ty c fuel bUnique v (load / 100) s)
      (fun t => ∃ q, Tracks c calm t q ∧ q.keys = p.keys ∧ (calm → q.Roomy))
      (Stopped calm pass) := by
  set keys := v.eraseVector.map ty.cast with hkeys
  have hlen : keys.length = load / 100 := by rw [hkeys, List.length_map, hv.length_erase]
  have hsize {n : ℕ} (hn : n = load / 100) : n < 2 ^ 32 := by
    have := hp.small
    omega
  have hin : ∀ key ∈ keys, key ∈ p.keys := hp.mem hv.erase
  have hne : pass → keys ≠ [] := fun hp => hv.ne_nil (hpass hp)
  have hnodup : keys.Nodup := nodup_of_sublist hp.distinct (hv.erase.trans (List.take_sublist _ _))
  have hsmall {q : Phase K} (hq : q.keys = p.keys) :
      ((q.removeAll keys).keys ∪ keys.toFinset).card < 2 ^ 28 := by
    rw [← Phase.keys_addAll, ← Phase.replaced, Phase.keys_replaced (by rwa [hq]), hq, hp.card_eq]
    exact hp.small
  have hzero := hp.graves
  have hpeak : load ≤ p.peak := hp.card_eq.ge.trans p.card_le
  have hone : (p.removeAll keys).graves ≤ p.graves + load / 100 :=
    hlen ▸ Phase.graves_removeAll_le
  have hfirst : (p.replaced keys).graves ≤ p.graves + load / 100 := hlen ▸ Phase.graves_replaced_le
  have htwo : ((p.replaced keys).removeAll keys).graves ≤ p.graves + 2 * (load / 100) := by
    have hagain : ((p.replaced keys).removeAll keys).graves ≤ (p.replaced keys).graves + keys.length :=
      Phase.graves_removeAll_le
    omega
  have hsame : (p.replaced keys).keys = p.keys := Phase.keys_replaced hin
  have hsub : (p.removeAll keys).keys ⊆ p.keys := by
    rw [Phase.keys_removeAll]
    exact Finset.sdiff_subset
  have hgone : pass → ((∀ key ∈ keys, key ∈ (p.removeAll keys).keys) ↔ false = true) := fun hp =>
    iff_of_false (not_forall_of_ne_nil (hne hp) Phase.notMem_removeAll) (by simp)
  rw [replaceKeys]
  refine h.eraseTwice hset hnot hv.length_erase hnodup hin (fun hcalm => ?_) hne fun t ht => ?_
  · have := hzero hcalm
    omega
  have hroom : calm → (p.removeAll keys).Roomy :=
    hp.roomy (fun _ => by omega) Phase.peak_removeAll.ge
  refine (ht.expectContains hset hv.length_erase (hsize hv.length_erase) hroom false hgone).bind
    fun _ _ => ?_
  rw [hv.add]
  refine (ht.expectContains hset hv.length_erase (hsize hv.length_erase) hroom false hgone).bind
    fun _ _ => ?_
  refine (ht.expectContains hset hv.length_unknown (hsize hv.length_unknown) hroom false
    fun h => iff_of_false (hp.missing hv (hpass h) hsub) (by simp)).bind fun _ _ => ?_
  refine ht.addTwice hset hv.length_erase hnodup Phase.notMem_removeAll (fun _ => hsmall rfl) hne
    bUnique fun t ht => ?_
  change Tracks c calm t (p.replaced keys) at ht
  refine (ht.expectContains hset hv.length_find (hsize hv.length_find) ?_ true
    fun _ => iff_of_true (hsame ▸ hp.mem hv.find) rfl).bind fun _ _ => ?_
  · exact hp.roomy (fun _ => by omega) Phase.le_peak_replaced
  refine ht.eraseTwice hset hnot hv.length_erase hnodup (hsame ▸ hin) (fun hcalm => ?_) hne
    fun t ht => ?_
  · have hpeak' : p.peak ≤ (p.replaced keys).peak := Phase.le_peak_replaced
    have := hzero hcalm
    omega
  refine ht.addTwice hset hv.length_erase hnodup Phase.notMem_removeAll (fun _ => hsmall hsame) hne
    bUnique fun t ht => ?_
  change Tracks c calm t ((p.replaced keys).replaced keys) at ht
  refine ⟨_, ht, (Phase.keys_replaced (hsame ▸ hin)).trans hsame, ?_⟩
  refine hp.roomy (fun _ => ?_) (Phase.le_peak_replaced.trans Phase.le_peak_replaced)
  rw [Phase.replaced, Phase.graves_addAll]
  exact htwo

theorem Tracks.test2_ensures (h : Tracks c calm s p) (hp : Filled ty calm dataSet load p)
    (hv : Sampled dataSet load v) (bUnique : Bool)
    (hpass : pass → ∃ x ∈ v.unknownVector, x ∉ dataSet.take load) :
    Exec.Ensures (test2 ty c fuel bUnique v (load / 100) s)
      (fun r => r.1 = (if c.type ≠ .index then 16 else 4) * (load / 100) ∧
        (∃ x ∈ v.unknownVector, x ∉ dataSet.take load) ∧
        ∃ q, Tracks c calm r.2 q ∧ q.keys = p.keys) (Stopped calm pass) := by
  have hload : load / 100 % 2 ^ 32 = load / 100 := by
    have := hp.small
    omega
  have hsize {n : ℕ} (hn : n = load / 100) : n < 2 ^ 32 := by omega
  rw [test2, hload]
  have hreplaced : Exec.Ensures
      (if c.type ≠ .index then replaceKeys ty c fuel bUnique v (load / 100) s else .ok s)
      (fun t => ∃ q, Tracks c calm t q ∧ q.keys = p.keys ∧ (calm → q.Roomy))
      (Stopped calm pass) := by
    by_cases hnot : c.type ≠ .index
    · rw [if_pos hnot]
      exact h.replaceKeys_ensures hset hp hv hnot bUnique hpass
    · rw [if_neg hnot]
      exact ⟨p, h, rfl, hp.roomy (fun _ => Nat.le_add_right _ _) le_rfl⟩
  refine hreplaced.bind fun t ht => ?_
  obtain ⟨q, hq, hkeys, hroom⟩ := ht
  have herase : Exec.Ensures (expectTest true
      (testContains ty c fuel v.eraseVector 0 (load / 100) false t)) _ (Stopped calm pass) :=
    hq.expectContains hset hv.length_erase (hsize hv.length_erase) hroom true
      fun _ => iff_of_true (hkeys ▸ hp.mem hv.erase) rfl
  refine herase.bind fun _ _ => ?_
  rw [hv.add]
  refine herase.bind fun _ _ => ?_
  refine (hq.expectContains hset hv.length_find (hsize hv.length_find) hroom true
    fun _ => iff_of_true (hkeys ▸ hp.mem hv.find) rfl).bind fun _ _ => ?_
  refine (hq.expectContains hset hv.length_unknown (hsize hv.length_unknown) hroom false
    fun h => iff_of_false (hp.missing hv (hpass h) hkeys.le) (by simp)).bind fun _ hno => ?_
  refine ⟨rfl, ?_, q, hq, hkeys⟩
  by_contra hall
  push Not at hall
  refine absurd (hno.mp fun key hkey => ?_) (by simp)
  obtain ⟨x, hx, rfl⟩ := List.mem_map.mp hkey
  rw [hkeys, hp.keys, List.mem_toFinset, cast_mem_loaded hp.distinct (hv.unknown.mem hx)]
  exact hall x hx

omit hset [DecidableEq K] in
theorem mem_loaded_of_keysAt {offset size : ℕ} (h : offset + size ≤ load) {key : K}
    (hkey : key ∈ keysAt ty dataSet offset size) : key ∈ loaded ty dataSet load := by
  rw [loaded_eq]
  rw [keysAt] at hkey
  have hsub : ((dataSet.drop offset).take size).Sublist (dataSet.take load) := by
    have hdrop : (dataSet.drop offset).take size = (dataSet.take (offset + size)).drop offset := by
      rw [List.drop_take, Nat.add_sub_cancel_left]
    rw [hdrop]
    exact (List.drop_sublist _ _).trans (List.take_prefix_take_left h).sublist
  exact (hsub.map ty.cast).mem hkey

/-- `TEST3` and `TEST4` look up stored keys. In reverse twenty keys must be there. -/
theorem Tracks.testSegments_ensures (h : Tracks c calm s p) (hp : Filled ty calm dataSet load p)
    (hlen : dataSet.length < 2 ^ 32) (bReverse : Bool) (hpass : pass → bReverse = true → 20 ≤ load) :
    Exec.Ensures (testSegments ty c fuel bReverse dataSet load s)
      (fun r => r.1 = 3 * (load * 5 / 100) ∧ (bReverse = true → 20 ≤ load) ∧ r.2 = s)
      (Stopped calm pass) := by
  have hload := hp.length
  have hsize : load * 5 / 100 % 2 ^ 32 = load * 5 / 100 := by
    have := hp.small
    omega
  rw [testSegments, hsize]
  by_cases hfew : bReverse = true ∧ load < 20
  · obtain ⟨rfl, hfew⟩ := hfew
    have hnone : load * 5 / 100 = 0 := by omega
    rw [hnone]
    have hfault : testContains ty c fuel dataSet 0 0 true s = .error .outOfBounds :=
      testContains_none hlen
    simp only [expectTest, hfault, Exec.error_bind, Exec.ensures_error]
    refine .inr ⟨fun h => ?_, by simp⟩
    have := hpass h rfl
    omega
  have henough : bReverse = true → 20 ≤ load := fun hb => not_lt.mp fun hlt => hfew ⟨hb, hlt⟩
  have hsegment {offset : ℕ} (ho : offset + load * 5 / 100 ≤ load) :
      Exec.Ensures (expectTest true
        (testContains ty c fuel dataSet offset (load * 5 / 100) bReverse s))
        (fun _ => True) (Stopped calm pass) := by
    have hin : ∀ key ∈ keysAt ty dataSet offset (load * 5 / 100), key ∈ p.keys := by
      intro key hkey
      rw [hp.keys, List.mem_toFinset]
      exact mem_loaded_of_keysAt ho hkey
    refine (expectTest_ensures (h.testContains_ensures hset (ho.trans hload) hlen bReverse (fun hb => ?_)
      fun _ => .inr hin) fun _ => iff_of_true hin rfl).mono fun _ _ => trivial
    have := henough hb
    omega
  refine (hsegment (by omega)).bind fun _ _ => ?_
  refine (hsegment (by omega)).bind fun _ _ => ?_
  refine (hsegment (by omega)).bind fun _ _ => ?_
  exact ⟨by omega, henough, rfl⟩

variable {width : ℕ}

omit [DecidableEq K] in
/-- `TEST5` comes to every key ten times. -/
theorem Tracks.testIteration_eq (h : Tracks c calm s p) (hw : IsWidth width) :
    testIteration c fuel width s = .ok (10 * p.keys.card, s) := by
  obtain ⟨entries, hvisited, hkeys⟩ := h.visited hset hw
  have hlength : entries.length = p.keys.card := by
    rw [Finset.card_def, ← hkeys, Multiset.coe_card, List.length_map]
  have hrounds (n : ℕ) : Exec.forRange n (fun _ opCounter =>
      .ok (opCounter + entries.length)) 0 = .ok (n * entries.length) := by
    induction n with
    | zero => simp [Exec.forRange]
    | succ n ih => simp [Exec.forRange, ih, Nat.succ_mul]
  simp only [testIteration, hvisited, Exec.ok_bind]
  rw [hrounds 10, hlength]
  rfl

theorem Tracks.keysSum_eq (h : Tracks c calm s p) (hp : p.keys = (loaded ty dataSet load).toFinset)
    (hdistinct : (dataSet.map ty.cast).Nodup) (hw : IsWidth width) :
    keysSum ty c fuel width s = .ok ((dataSet.take load).map fun x => ty.word (ty.cast x)).sum := by
  obtain ⟨entries, hvisited, hkeys⟩ := h.visited hset hw
  have hperm : (entries.map Entry.key).Perm (loaded ty dataSet load) := by
    have hnodup : (loaded ty dataSet load).Nodup := by
      rw [loaded_eq]
      exact nodup_of_sublist hdistinct (List.take_sublist _ _)
    rw [← Multiset.coe_eq_coe, hkeys, hp, List.toFinset_val, hnodup.dedup]
  have hsum := (hperm.map ty.word).sum_eq
  rw [loaded_eq, List.map_map, List.map_map] at hsum
  rw [keysSum, hvisited]
  exact congrArg Except.ok hsum

omit hset [DecidableEq K] in
theorem loaded_append {m : ℕ} (h : m ≤ load) :
    loaded ty dataSet load = loaded ty dataSet m ++ keysAt ty dataSet m (load - m) := by
  have htake : dataSet.take load = dataSet.take m ++ (dataSet.drop m).take (load - m) := by
    rw [← List.take_add, Nat.add_sub_cancel' h]
  rw [loaded_eq, loaded_eq, htake, List.map_append, keysAt]

end Tests

section Loads

variable [DecidableEq K] {sampler : Sampler} {tt : TestType} {width : ℕ}

/-- What the tests rely on: the loads that the data set and the vectors have
room for, a word that is in none of the containers, and a segment to go through. -/
structure LoadPasses (sampler : Sampler) (tt : TestType) (dataSet : List UInt64) (load : ℕ) : Prop where
  length : load ≤ dataSet.length
  testLoad : load / 100 ≤ testVectorSize
  unknown : tt = .test2 → ∃ x ∈ (sampled sampler dataSet load (load / 100)).unknownVector,
    x ∉ dataSet.take load
  segment : tt = .test4 → 20 ≤ load

/-- The number of operations by which the time of a test is divided. -/
def opCount (type : ContainerType) (load : ℕ) : TestType → ℕ
  | .test2 => (if type ≠ .index then 16 else 4) * (load / 100)
  | .test3 => 3 * (load * 5 / 100)
  | .test4 => 3 * (load * 5 / 100)
  | .test5 => 10 * load
  | _ => load

/-- What a load divides by is not zero. -/
structure LoadCounts (type : ContainerType) (tt : TestType) (load : ℕ) : Prop where
  load_pos : 0 < load
  ops_pos : tt ≠ .test5 → 0 < opCount type load tt

omit [DecidableEq K] in
theorem divideBy_ensures (n : ℕ) : Exec.Ensures (divideBy n) (fun _ => 0 < n)
    (fun e => n = 0 ∧ e = .divisionByZero) := by
  by_cases hn : n = 0
  · rw [divideBy, if_pos hn]
    exact ⟨hn, rfl⟩
  · rw [divideBy, if_neg hn]
    exact Nat.pos_of_ne_zero hn

omit [DecidableEq K] in
theorem divisions_ensures {β : Type} (type : ContainerType) (tt : TestType) (load : ℕ) (r : β) :
    Exec.Ensures ((if tt ≠ .test5 then divideBy (opCount type load tt) else .ok ()) >>= fun _ =>
        divideBy load >>= fun _ => .ok r)
      (fun r' => r' = r ∧ LoadCounts type tt load)
      (fun e => ¬ LoadCounts type tt load ∧ e = .divisionByZero) := by
  have hops : Exec.Ensures (if tt ≠ .test5 then divideBy (opCount type load tt) else .ok ())
      (fun _ => tt ≠ .test5 → 0 < opCount type load tt)
      (fun e => ¬ LoadCounts type tt load ∧ e = .divisionByZero) := by
    by_cases htt : tt ≠ .test5
    · rw [if_pos htt]
      refine (divideBy_ensures _).imp (fun _ hpos _ => hpos) fun e he => ⟨fun h => ?_, he.2⟩
      exact (h.ops_pos htt).ne' he.1
    · rw [if_neg htt]
      exact fun h => absurd h htt
  refine hops.bind fun _ hops => ?_
  refine ((divideBy_ensures load).imp (fun _ hpos => hpos) fun e he => ?_).bind fun _ hpos => ?_
  · exact ⟨fun h => h.load_pos.ne' he.1, he.2⟩
  · exact ⟨rfl, hpos, hops⟩

variable (hset : Setting c fuel calm) (hw : IsWidth width)

include hset hw

theorem Tracks.runTest_ensures (h : Tracks c calm s p) (hp : Filled ty calm dataSet load p)
    (hlen : dataSet.length < 2 ^ 32) (htest : load / 100 ≤ testVectorSize)
    (hv : Sampled dataSet load v)
    (hunknown : v = sampled sampler dataSet load (load / 100))
    (bUnique : Bool) :
    Exec.Ensures (runTest ty c fuel width bUnique dataSet load tt v s)
      (fun r => r.1 = opCount c.type load tt ∧ LoadPasses sampler tt dataSet load ∧
        ∃ q, Tracks c calm r.2 q ∧ q.keys = p.keys ∧ (tt ≠ .test2 → q.graves = p.graves))
      (Stopped calm (LoadPasses sampler tt dataSet load)) := by
  have hsegments (bReverse : Bool) (htt : tt = if bReverse then .test4 else .test3) :
      Exec.Ensures (testSegments ty c fuel bReverse dataSet load s)
        (fun r => r.1 = opCount c.type load tt ∧ LoadPasses sampler tt dataSet load ∧
          ∃ q, Tracks c calm r.2 q ∧ q.keys = p.keys ∧ (tt ≠ .test2 → q.graves = p.graves))
        (Stopped calm (LoadPasses sampler tt dataSet load)) := by
    refine (h.testSegments_ensures hset hp hlen bReverse fun hpass hb => ?_).mono fun r hr => ?_
    · exact hpass.segment (by rw [htt, if_pos hb])
    · obtain ⟨hcount, hmany, hs⟩ := hr
      refine ⟨hcount.trans ?_, ⟨hp.length, htest, ?_, ?_⟩, p, hs.symm ▸ h, rfl, fun _ => rfl⟩
      · cases bReverse <;> simp [htt, opCount]
      · cases bReverse <;> simp [htt]
      · cases bReverse with
        | true => exact fun _ => hmany rfl
        | false => simp [htt]
  have hsame (hnot : tt ≠ .test2 ∧ tt ≠ .test4) : LoadPasses sampler tt dataSet load :=
    ⟨hp.length, htest, fun h => absurd h hnot.1, fun h => absurd h hnot.2⟩
  have hcard := hp.card_eq
  cases tt with
  | test2 =>
    refine (h.test2_ensures hset hp hv bUnique fun hpass => ?_).mono fun r hr => ?_
    · rw [hunknown]
      exact hpass.unknown rfl
    · obtain ⟨hcount, hmissing, q, hq, hkeys⟩ := hr
      rw [hunknown] at hmissing
      exact ⟨hcount, ⟨hp.length, htest, fun _ => hmissing, by simp⟩, q, hq, hkeys, by simp⟩
  | test3 => exact hsegments false rfl
  | test4 => exact hsegments true rfl
  | test5 =>
    rw [runTest, h.testIteration_eq hset hw, hcard]
    exact ⟨rfl, hsame (by simp), p, h, rfl, fun _ => rfl⟩
  | unknown =>
    exact ⟨h.count_card.trans hcard, hsame (by simp), p, h, rfl, fun _ => rfl⟩
  | test1 =>
    exact ⟨h.count_card.trans hcard, hsame (by simp), p, h, rfl, fun _ => rfl⟩

/-- One load of the benchmark, of which the first `m` words are in the object. -/
theorem Tracks.benchObject_ensures (h : Tracks c calm s p) (hdistinct : (dataSet.map ty.cast).Nodup)
    (hlen : dataSet.length < 2 ^ 32) {m : ℕ} (hm : m ≤ load) {bReuse : Bool}
    (hstart : tt = .test1 ∨ bReuse = false → m = 0)
    (hkeys : p.keys = (loaded ty dataSet m).toFinset) (hgraves : calm → p.graves ≤ 0)
    (bUnique : Bool) :
    Exec.Ensures (benchObject ty c fuel width sampler bReuse bUnique dataSet load tt s)
      (fun r => r.1 = opCount c.type load tt ∧
        (LoadPasses sampler tt dataSet load ∧ LoadCounts c.type tt load) ∧
        ∃ q, Tracks c calm r.2 q ∧ q.keys = (loaded ty dataSet load).toFinset ∧
          (tt ≠ .test2 → q.graves = p.graves))
      (Halted calm (LoadPasses sampler tt dataSet load) (LoadCounts c.type tt load)) := by
  refine ((makeTestVector_ensures sampler).imp (fun v hv => hv) fun e he => ?_).bind fun v hv => ?_
  · exact .inl (.inr ⟨fun hpass => he.1 ⟨hpass.length, hpass.testLoad⟩, he.2⟩)
  obtain ⟨⟨hload, htest⟩, hv, hunknown⟩ := hv
  have hsmall : load < 2 ^ 28 := by
    rw [testVectorSize] at htest
    omega
  set new := keysAt ty dataSet m (load - m) with hnew
  have hall : (loaded ty dataSet load).Nodup := by
    rw [loaded_eq]
    exact nodup_of_sublist hdistinct (List.take_sublist _ _)
  rw [loaded_append hm, ← hnew] at hall
  obtain ⟨hold, hnodup, hdisjoint⟩ := List.nodup_append.mp hall
  have hout : ∀ key ∈ new, key ∉ p.keys := by
    intro key hkey hin
    rw [hkeys, List.mem_toFinset] at hin
    exact hdisjoint key hin key hkey rfl
  have hunion : (p.addAll new).keys = (loaded ty dataSet load).toFinset := by
    rw [Phase.keys_addAll, hkeys, loaded_append hm, List.toFinset_append]
  have hp : Filled ty calm dataSet load (p.addAll new) :=
    { keys := hunion
      graves := by simpa using hgraves
      length := hload
      small := hsmall
      distinct := hdistinct }
  have hcount : s.count = m := by
    rw [h.count_card, hkeys, List.toFinset_card_of_nodup hold, loaded, length_keysAt]
    omega
  have hadd : (if tt = .test1 ∨ bReuse = false then
        testAdd ty c fuel bUnique dataSet 0 (load % 2 ^ 32) s
      else testAdd ty c fuel bUnique dataSet s.count ((load + 2 ^ 64 - s.count) % 2 ^ 32) s) =
      testAdd ty c fuel bUnique dataSet m (load - m) s := by
    split_ifs with hfresh
    · rw [hstart hfresh, Nat.sub_zero, Nat.mod_eq_of_lt (by omega)]
    · rw [hcount, show (load + 2 ^ 64 - m) % 2 ^ 32 = load - m by omega]
  have hfilled : Exec.Ensures (testAdd ty c fuel bUnique dataSet m (load - m) s) _ _ :=
    h.testAdd_ensures hset bUnique (by omega) hnodup
      (fun key hkey hstale => hout key hkey (p.stale_subset hstale)) (fun _ => hout) fun _ => by
        rw [← Phase.keys_addAll, hp.card_eq]
        exact hsmall
  rw [← hadd] at hfilled
  refine (halted (expect_ensures (P := fun t => Tracks c calm t (p.addAll new)) hfilled
    fun _ => iff_of_true hout rfl)).bind fun t ht => ?_
  have hall : load = t.count := by rw [ht.count_card, hp.card_eq]
  rw [Exec.assert_of true hall, Exec.ok_bind]
  refine (halted (ht.runTest_ensures hset hw hp hlen htest hv hunknown bUnique)).bind fun r hr => ?_
  obtain ⟨opCounter, u⟩ := r
  obtain ⟨hops, hpass, q, hq, hqkeys, hqgraves⟩ := hr
  have hsum := hq.keysSum_eq hset (hqkeys.trans hunion) hdistinct hw
  simp only at hops
  simp only [hsum, Exec.ok_bind, Exec.assert_of true, hops]
  refine (divisions_ensures c.type tt load _).imp ?_ fun e he => .inr he
  rintro _ ⟨rfl, hcounts⟩
  exact ⟨rfl, ⟨hpass, hcounts⟩, q, hq, hqkeys.trans hunion,
    fun htt => (hqgraves htt).trans (by simp)⟩

end Loads

end BenchHash

end SimdHash
