import SimdHash.DataSet
import SimdHash.PlacedRuns

/-! Consecutive keys under the library's own hash functions. A table takes as
many of them as it has slots, each in its home slot, whatever its growth. -/

namespace SimdHash

open OpenAddressing TagVector Transition

section Consecutive

/-- The 32 low bits count up, or down, from somewhere. -/
def Consecutive {K : Type} (bits : K → UInt64) (keys : ℕ → K) : Prop :=
  ∃ first : ℕ, (∀ j, (bits (keys j)).toNat ≡ first + j [MOD 2 ^ 32]) ∨
    ∀ j, (bits (keys j)).toNat + j ≡ first [MOD 2 ^ 32]

theorem Consecutive.mod_eq {K : Type} {bits : K → UInt64} {keys : ℕ → K}
    (h : Consecutive bits keys) {m : ℕ} (hm : m ≤ 32) {i j : ℕ}
    (heq : (bits (keys i)).toNat % 2 ^ m = (bits (keys j)).toNat % 2 ^ m) :
    i % 2 ^ m = j % 2 ^ m := by
  have hdvd : 2 ^ m ∣ 2 ^ 32 := Nat.pow_dvd_pow 2 hm
  obtain ⟨first, hup | hdown⟩ := h
  · have hi := (hup i).of_dvd hdvd
    have hj := (hup j).of_dvd hdvd
    exact Nat.ModEq.add_left_cancel' first ((hi.symm.trans heq).trans hj)
  · have hi := (hdown i).of_dvd hdvd
    have hj := (hdown j).of_dvd hdvd
    exact Nat.ModEq.add_left_cancel heq (hi.trans hj.symm)

end Consecutive

section Insertions

variable {K V : Type} {t : ContainerType}

/-- What such a call returns for a new key, where `count` keys are stored. -/
def Op.fresh (op : Op K V t) (count : ℕ) : Result V :=
  match op with
  | .tryAdd _ _ _ => .added true count
  | _ => .bool true

end Insertions

namespace Core

variable {K V : Type} {c : Template K} {s t start : Core K V} {fuel n : ℕ} {keys : ℕ → K}

/-- The container holds the first `n` keys, each in its home slot. -/
structure FilledTo (c : Template K) (keys : ℕ → K) (n : ℕ) (s : Core K V) : Prop
    extends Inv c s where
  atHome : AtHome c s
  bounded : Bounded s
  count : s.count = n
  hasKey : ∀ k, HasKey c s k ↔ ∃ i < n, keys i = k

theorem FilledTo.lt_capacity (h : s.FilledTo c keys n) (hn : n < maxSize) : n < s.capacity := by
  by_cases hlt : s.capacity < maxSize
  · have hbound := h.bounded hlt
    have hlimit := h.limit_add_le hlt
    have hcount := h.count
    omega
  · exact hn.trans_le (not_lt.mp hlt)

section Step

variable {type : HashType} {bits : K → UInt64}

/-- The next key has a home of its own. -/
theorem FilledTo.alone (h : s.FilledTo c keys n) (hm : c.mode.isPowerOfTwo)
    (hhash : c.hasher = Hash.ofBits type bits) (hkeys : Consecutive bits keys) (hn : n < maxSize)
    {i : ℕ} (hi : i < n) : s.home c (keys i) ≠ s.home c (keys n) := by
  intro heq
  rw [home_eq_iff h.geometry hm hhash] at heq
  obtain ⟨m, -, hm31, hcap⟩ := h.geometry.exists_log hm
  have hlt := h.lt_capacity hn
  rw [hcap] at heq hlt
  have hmod := hkeys.mod_eq (by omega) heq
  rw [Nat.mod_eq_of_lt (hi.trans hlt), Nat.mod_eq_of_lt hlt] at hmod
  exact absurd hmod hi.ne

theorem FilledTo.home_free (h : s.FilledTo c keys n) (hm : c.mode.isPowerOfTwo)
    (hhash : c.hasher = Hash.ofBits type bits) (hkeys : Consecutive bits keys) (hn : n < maxSize) :
    ¬ HasKey c s (keys n) ∧ Alone (s.home c) c s (keys n) := by
  have hne {i : ℕ} (hi : i < n) := h.alone hm hhash hkeys hn hi
  constructor
  · intro hk
    obtain ⟨i, hi, heq⟩ := (h.hasKey _).mp hk
    exact hne hi (congrArg _ heq)
  · intro k hk heq
    obtain ⟨i, hi, rfl⟩ := (h.hasKey k).mp hk
    exact absurd heq (hne hi)

variable [DecidableEq K] {bUnique bUpdate : Bool} {key : K} {value : V} {i : ℕ}

omit [DecidableEq K] in
theorem Inv.resize_same (h : s.Inv c) (hm : c.mode.isPowerOfTwo) {size : ℕ}
    (hsame : adjustCapacity c.mode size = s.capacity) :
    s.resize c fuel size = .ok (s.initCapacity c size) := by
  have hmode : c.mode ≠ .resizeOnlyEmpty := by
    rcases hm with hm | hm <;> simp [hm]
  rw [resize_eq hsame.not_lt, if_pos (hsame.trans h.size_eq.symm)]
  simp [hmode]

theorem Inv.insert_returns (h : s.Inv c) (hm : c.mode.isPowerOfTwo)
    (hslot : s.FreeSlot c bUnique key i) (value : V) (hfuel : maxSize ≤ fuel) :
    ∃ t, s.insert c fuel i key value = .ok t ∧ Inserted c s i key value t := by
  have hinv := h.placed_paged hslot.lt_size hslot.not_live hslot.reached value
  have hins : Exec.Ensures (s.insert c fuel i key value) (Inserted c s i key value) _ :=
    h.insert_ensures hslot.lt_size hslot.not_live hslot.reached value
  set u := Core.placed c (Core.paged c s) i (newEntry c s i key value) with hu
  have hsettings : SameSettings s (Core.paged c s) := paged_sameSettings
  have hcap : u.capacity = s.capacity := hsettings.capacity
  have hcount : u.count = s.count + 1 := congrArg (· + 1) (paged_count s)
  have hreturn : ∃ t, s.insert c fuel i key value = .ok t := by
    rw [insert_eq h hslot.lt_size]
    split_ifs with hlimit
    · by_cases hlt : s.capacity < maxSize
      · have hroom := h.limit_add_le hlt
        obtain ⟨t, ht, -⟩ := hinv.resize_returns hm (by omega) hfuel (s.capacity + 1)
        exact ⟨t, ht⟩
      · have hmax : s.capacity = maxSize :=
          le_antisymm h.geometry.isCapacity.le_max (not_lt.mp hlt)
        have hsame : adjustCapacity c.mode (s.capacity + 1) = u.capacity := by
          rw [hcap, hmax]
          exact adjustCapacity_of_ge (Nat.le_succ _)
        exact ⟨_, hinv.resize_same hm hsame⟩
    · exact ⟨u, rfl⟩
  obtain ⟨t, ht⟩ := hreturn
  exact ⟨t, ht, hins.value ht⟩

/-- Where the home of an absent key is free, both probe loops of `Add` stop there. -/
theorem Inv.probe_returns (h : s.Inv c) (hm : c.mode.isPowerOfTwo) (habsent : ¬ HasKey c s key)
    (hfree : ∀ e, s.slots c (s.home c key) ≠ .live e) (hfuel : maxSize ≤ fuel) (bUnique : Bool) :
    ∃ i, (if bUnique then s.probeUnique c fuel key else s.probeChecked c fuel key) = .ok (.free i) ∧
      s.FreeSlot c bUnique key i := by
  have hlarge : ¬ fuel < 2 ^ 16 := by
    have : 2 ^ 16 ≤ maxSize := by decide
    omega
  have hwindow : HasFree (s.slots c) (s.windows c (c.hasher key) 0) :=
    ⟨_, h.home_mem hm key, hfree⟩
  cases bUnique with
  | true =>
    have hrun : Exec.Ensures (s.probeUnique c fuel key) _ _ := h.toTable.probeUnique_ensures key
    obtain ⟨r, hr, i, rfl, hslot⟩ := hrun.returns fun e he => he.2 0 (by omega) hwindow
    exact ⟨i, hr, hslot⟩
  | false =>
    have hrun : Exec.Ensures (s.probeChecked c fuel key) _ _ := h.probeChecked_ensures key
    obtain ⟨r, hr, hfound⟩ := hrun.returns (by
      intro e he
      obtain ⟨-, hsmall | hall⟩ := he
      · exact hlarge hsmall
      · exact hall 0 (by omega) hwindow)
    rcases hfound with ⟨i, rfl, hslot⟩ | ⟨i, rfl, hslot⟩
    · obtain ⟨-, -, -, -, e, hlive, hkey⟩ := hslot
      exact absurd ⟨_, e, hlive, hkey⟩ habsent
    · exact ⟨i, hr, hslot⟩

/-- One more key. -/
theorem FilledTo.add_returns (h : s.FilledTo c keys n) (hm : c.mode.isPowerOfTwo)
    (hhash : c.hasher = Hash.ofBits type bits) (hkeys : Consecutive bits keys) (hn : n < maxSize) (hfuel : maxSize ≤ fuel)
    (bUnique bUpdate : Bool) (value : V) :
    ∃ t, s.add c fuel bUnique bUpdate (keys n) value = .ok ((true, n), t) ∧
      t.FilledTo c keys (n + 1) := by
  obtain ⟨habsent, halone⟩ := h.home_free hm hhash hkeys hn
  obtain ⟨i, hprobe, hslot⟩ := h.toInv.probe_returns hm habsent (halone.home_free habsent h.atHome)
    hfuel bUnique
  obtain ⟨t, hinsert, ht⟩ := h.toInv.insert_returns hm hslot value hfuel
  have hadd : s.add c fuel bUnique bUpdate (keys n) value = .ok ((true, n), t) := by
    cases bUnique with
    | true =>
      rw [if_pos rfl] at hprobe
      rw [add, if_pos rfl, hprobe]
      simp only [Exec.ok_bind, hinsert, h.count]
    | false =>
      rw [if_neg Bool.false_ne_true] at hprobe
      rw [add, if_neg Bool.false_ne_true, hprobe]
      simp only [Exec.ok_bind, hinsert, h.count]
  have hhome : Exec.Ensures (s.add c fuel bUnique bUpdate (keys n) value) _ _ :=
    h.toInv.add_home hm h.atHome halone fun _ => habsent
  refine ⟨t, hadd,
    { ht.toInv with
      atHome := hhome.value hadd
      bounded := ht.bounded h.toInv hm h.bounded
      count := by rw [ht.count, h.count]
      hasKey := fun k => ?_ }⟩
  rw [ht.hasKey, h.hasKey, Nat.exists_lt_succ_right, or_comm]
  simp [eq_comm]

end Step

section Runs

variable {type : HashType} {bits : K → UInt64} [DecidableEq K] {ops : ℕ → Op K V c.type}

/-- 64-bit keys under the library's Fibonacci hash function. -/
abbrev words (type : ContainerType) (mode : Mode) : Template UInt64 where
  type := type
  mode := mode
  bFix := false
  bDebug := true
  hasher := Hash.ofBits .fib id

end Runs

end Core

end SimdHash
