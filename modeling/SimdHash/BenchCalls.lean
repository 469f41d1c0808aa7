import SimdHash.BenchHash
import SimdHash.Discipline
import SimdHash.Insertions
import SimdHash.Liveness
import SimdHash.Selection

/-! What the benchmark may expect of one call, and of a loop of calls, in terms
of the keys that it has put in its object. -/

namespace SimdHash

namespace BenchHash

open SimdHash.Core OpenAddressing

/-- What the benchmark knows of its object: the keys in it, those that a removal
may have left behind a tombstone, how many keys it held at most, and how many
it removed. -/
structure Phase (K : Type) where
  keys : Finset K
  stale : Finset K
  peak : ℕ
  graves : ℕ
  stale_subset : stale ⊆ keys
  card_le : keys.card ≤ peak

namespace Phase

variable {K : Type}

def initial (K : Type) : Phase K := ⟨∅, ∅, 0, 0, Finset.Subset.refl _, le_rfl⟩

/-- At most two removals for every hundred keys. -/
def Roomy (p : Phase K) : Prop := p.graves ≤ 2 * (p.peak / 100)

variable [DecidableEq K]

def add (p : Phase K) (key : K) : Phase K where
  keys := insert key p.keys
  stale := p.stale
  peak := max p.peak (insert key p.keys).card
  graves := p.graves
  stale_subset := p.stale_subset.trans (Finset.subset_insert key p.keys)
  card_le := le_max_right _ _

def remove (p : Phase K) (key : K) : Phase K where
  keys := p.keys.erase key
  stale := if key ∈ p.keys then p.keys.erase key else p.stale
  peak := p.peak
  graves := p.graves + if key ∈ p.keys then 1 else 0
  stale_subset := by
    split_ifs with hkey
    · exact Finset.Subset.refl _
    · rw [Finset.erase_eq_of_notMem hkey]
      exact p.stale_subset
  card_le := (Finset.card_erase_le).trans p.card_le

variable {p : Phase K} {key : K}

theorem add_of_mem (h : key ∈ p.keys) : p.add key = p := by
  obtain ⟨keys, stale, peak, graves, hstale, hcard⟩ := p
  simp only [add, mk.injEq, true_and, and_true]
  rw [Finset.insert_eq_of_mem h]
  exact ⟨rfl, max_eq_left hcard⟩

theorem remove_of_notMem (h : key ∉ p.keys) : p.remove key = p := by
  obtain ⟨keys, stale, peak, graves, hstale, hcard⟩ := p
  simp [remove, show key ∉ keys from h]

end Phase

section Calls

variable {K : Type} {c : Template K} {s t : Core K K} {p : Phase K} {fuel : ℕ} {calm : Prop}

/-- Where the calls are bound to end: the sizes of the table and of the phase. -/
structure Lively (c : Template K) (s : Core K K) (p : Phase K) : Prop where
  factor : s.maxLoadFactor = 16000 / (16 * 1024)
  capacity : s.capacity ≤ 2 ^ 29
  peak : p.peak < s.countGrowthLimit
  graves : graves c s ≤ p.graves

/-- The object is in the phase `p`. -/
structure Tracks (c : Template K) (calm : Prop) (s : Core K K) (p : Phase K) : Prop
    extends Inv c s where
  keys : (s.entriesHeld c).map Entry.key = p.keys.val
  stale : ∀ key, Shadowed c s key → key ∈ p.stale
  lively : calm → Lively c s p

/-- The templates that are looked at, and those of them whose calls end. -/
structure Setting (c : Template K) (fuel : ℕ) (calm : Prop) : Prop where
  fix : c.bFix = false
  mode : c.mode ≠ .resizeOnlyEmpty
  powerOfTwo : calm → c.mode.isPowerOfTwo
  fuel : maxSize < fuel

theorem Setting.peaceful (hfix : c.bFix = false) (hm : c.mode.isPowerOfTwo) (hfuel : maxSize < fuel) :
    Setting c fuel True where
  fix := hfix
  mode := by rcases hm with hm | hm <;> simp [hm]
  powerOfTwo _ := hm
  fuel := hfuel

/-- The only fault, and none in a calm setting. -/
def Late (calm : Prop) (e : Fault) : Prop := e = .timeout ∧ ¬ calm

theorem Tracks.mem_iff (h : Tracks c calm s p) {key : K} : key ∈ p.keys ↔ HasKey c s key := by
  rw [← Finset.mem_val, ← h.keys, Multiset.mem_map]
  exact hasKey_iff.symm

theorem Tracks.count_card (h : Tracks c calm s p) : s.count = p.keys.card := by
  rw [h.toInv.count_eq, ← Multiset.card_map Entry.key, h.keys]
  rfl

/-- Two removals for every hundred keys leave the sixteen slots that a lookup needs. -/
theorem Tracks.room (h : Tracks c calm s p) (hcalm : calm) (hroomy : p.Roomy) :
    s.count + graves c s + 15 < s.capacity := by
  have hl := h.lively hcalm
  have hmin : 4096 ≤ s.capacity := h.geometry.isCapacity.min_le
  have hcap := hl.capacity
  have hmax : s.capacity < maxSize := lt_of_le_of_lt hcap (by decide)
  have hlimit : (p.peak + 1) * 1024 ≤ s.capacity * 1000 := by
    have hpeak : p.peak + 1 ≤ ⌊(s.capacity : ℚ) * (16000 / (16 * 1024))⌋₊ := by
      have hpeak := hl.peak
      rwa [h.limit_eq, growthLimit, if_pos hmax, hl.factor] at hpeak
    have hfloor := (Nat.le_floor_iff (by positivity)).mp hpeak
    have hscaled : ((p.peak + 1 : ℕ) : ℚ) * 1024 ≤ s.capacity * 1000 := by linarith
    exact_mod_cast hscaled
  have hcount : s.count ≤ p.peak := h.count_card.le.trans p.card_le
  have hgraves := hl.graves
  rw [Phase.Roomy] at hroomy
  omega

theorem adjustCapacity_le_half {mode : Mode} (hm : mode.isPowerOfTwo) {size : ℕ}
    (h : size ≤ 2 ^ 29) : adjustCapacity mode size ≤ 2 ^ 29 := by
  have hnot : mode ≠ .resizeOnlyEmpty := by
    rcases hm with rfl | rfl <;> simp
  refine (adjustCapacity_isLeast hnot (h.trans (by decide))).2 ⟨.inl ⟨29, ?_, ?_, rfl⟩, h⟩ <;> decide

variable [DecidableEq K]

/-- Calls that return a `bool` are specified by that and the state they leave. -/
theorem callBool_ensures {op : Op K K c.type} {Q : Bool × Core K K → Prop} {E : Fault → Prop}
    (h : Exec.Ensures (step c fuel s op) (fun r => ∃ b, r.1 = .bool b ∧ Q (b, r.2)) E) :
    Exec.Ensures (callBool c fuel op s) Q E := by
  refine h.bind fun r hr => ?_
  obtain ⟨b, hb, hq⟩ := hr
  obtain ⟨r, t⟩ := r
  obtain rfl : r = .bool b := hb
  exact hq

omit [DecidableEq K] in
theorem Tracks.lookup_fault (h : Tracks c calm s p) (hset : Setting c fuel calm) {key : K}
    (hroom : calm → key ∈ p.keys ∨ p.Roomy) {e : Fault} (he : LookupFault c s fuel key e) :
    Late calm e := by
  refine ⟨he.1, fun hcalm => ?_⟩
  refine h.toInv.lookup_ends (hset.powerOfTwo hcalm) hset.fix hset.fuel.le ?_ e he
  rcases hroom hcalm with hkey | hroomy
  · exact .inl (h.mem_iff.mp hkey)
  · exact .inr (h.room hcalm hroomy)

theorem Tracks.callBool_contains (h : Tracks c calm s p) (hset : Setting c fuel calm) {key : K}
    (hroom : calm → key ∈ p.keys ∨ p.Roomy) :
    Exec.Ensures (callBool c fuel (.contains key) s)
      (fun r => (r.1 = true ↔ key ∈ p.keys) ∧ Tracks c calm r.2 p) (Late calm) := by
  refine callBool_ensures ((h.toInv.step_ensures (.contains key)).imp ?_ ?_)
  · intro r hr
    obtain ⟨r, t⟩ := r
    change Outcome c s (.contains key) r t at hr
    cases hr with
    | contains hr =>
      refine ⟨_, rfl, ?_, h⟩
      cases hr with
      | found hmet hlive hkey =>
        exact iff_of_true rfl (h.mem_iff.mpr ⟨_, _, hlive, hkey⟩)
      | absent hunmet =>
        refine iff_of_false (by simp) fun hkey => ?_
        exact h.met_or_absent hset.fix key ⟨h.mem_iff.mp hkey, hunmet⟩
  · exact fun e he => h.lookup_fault hset hroom he

theorem Tracks.callBool_remove (h : Tracks c calm s p) (hset : Setting c fuel calm) {key : K}
    (offered : c.type ≠ .index) (hroom : calm → key ∈ p.keys ∨ p.Roomy) :
    Exec.Ensures (callBool c fuel (.remove key offered) s)
      (fun r => (r.1 = true ↔ key ∈ p.keys) ∧ Tracks c calm r.2 (p.remove key)) (Late calm) := by
  have hstep : Exec.Ensures (step c fuel s (.remove key offered)) _ _ := h.toInv.step_ensures _
  refine callBool_ensures (hstep.withValue.imp ?_ ?_)
  · intro r hr
    obtain ⟨r, t⟩ := r
    obtain ⟨hr, hrun⟩ := hr
    have htouched := h.toInv.step_touched hrun
    change Outcome c s (.remove key offered) r t at hr
    cases hr with
    | remove hr =>
      cases hr with
      | @removed i e hmet hlive hkey =>
        have hmem : key ∈ p.keys := h.mem_iff.mpr ⟨_, _, hlive, hkey⟩
        have ht : (buried s i).Inv c := h.toInv.buried offered hlive
        have hheld := entriesHeld_buried hlive
        have hkeys := h.keys
        rw [hheld, Multiset.map_cons, hkey] at hkeys
        have hleft : ((buried s i).entriesHeld c).map Entry.key = (p.remove key).keys.val := by
          rw [Phase.remove, Finset.erase_val, ← hkeys, Multiset.erase_cons_head]
        refine ⟨true, rfl, iff_of_true rfl hmem, { ht with keys := hleft, stale := ?_, lively := ?_ }⟩
        · intro k hk
          have hstored : k ∈ (p.remove key).keys := by
            rw [← Finset.mem_val, ← hleft, Multiset.mem_map]
            exact hasKey_iff.mp hk.1
          simpa [Phase.remove, hmem] using hstored
        · intro hcalm
          have hl := h.lively hcalm
          have hle := htouched.graves_le ht
          exact
            { factor := hl.factor
              capacity := hl.capacity
              peak := hl.peak
              graves := by
                simpa [Phase.remove, hmem, Op.removed] using
                  hle.trans (Nat.add_le_add_right hl.graves 1) }
      | absent hunmet =>
        have hnot : key ∉ p.keys := fun hkey =>
          h.met_or_absent hset.fix key ⟨h.mem_iff.mp hkey, hunmet⟩
        exact ⟨false, rfl, iff_of_false (by simp) hnot, (Phase.remove_of_notMem hnot).symm ▸ h⟩
  · exact fun e he => h.lookup_fault hset hroom he

/-- The sizes after an insertion, while there are fewer than 2^28 keys. -/
theorem Lively.inserted (h : Lively c s p) (hs : s.Inv c) (hm : c.mode.isPowerOfTwo)
    (hcount : s.count = p.keys.card) {key value : K} {i : ℕ} (ht : Inserted c s i key value t)
    (hnew : key ∉ p.keys) (hsmall : p.keys.card < 2 ^ 28) (hgraves : Core.graves c t ≤ Core.graves c s) :
    Lively c t (p.add key) := by
  have hmax : s.capacity < maxSize := lt_of_le_of_lt h.capacity (by decide)
  have hb : Bounded s := fun _ => hcount ▸ p.card_le.trans_lt h.peak
  have hcapacity : t.capacity ≤ 2 ^ 29 := by
    rw [ht.capacity]
    by_cases hlimit : s.count + 1 = s.countGrowthLimit
    · rw [if_pos hlimit]
      have hle := le_growthLimit hs.factor_min hmax
      rw [← hs.limit_eq] at hle
      exact max_le h.capacity (adjustCapacity_le_half hm (by omega))
    · rw [if_neg hlimit]
      exact h.capacity
  have htmax : t.capacity < maxSize := lt_of_le_of_lt hcapacity (by decide)
  have hlimit : s.countGrowthLimit ≤ t.countGrowthLimit := by
    rw [hs.limit_eq, ht.limit_eq, ht.factor]
    refine growthLimit_mono hs.factor_min ?_ htmax
    rw [ht.capacity]
    split_ifs
    · exact le_max_left _ _
    · exact le_rfl
  have hcard : (insert key p.keys).card = t.count := by
    rw [Finset.card_insert_of_notMem hnew, ht.count, hcount]
  exact
    { factor := ht.factor.trans h.factor
      capacity := hcapacity
      peak := max_lt (h.peak.trans_le hlimit) (hcard ▸ ht.bounded hs hm hb htmax)
      graves := hgraves.trans h.graves }

theorem Tracks.add_fault (h : Tracks c calm s p) (hset : Setting c fuel calm) {bUnique : Bool}
    {key value : K} {e : Fault} (he : AddFault c s fuel key e)
    (hrun : s.add c fuel bUnique false key value = .error e) : Late calm e := by
  refine ⟨?_, fun hcalm => ?_⟩
  · rcases he with ⟨he, -⟩ | ⟨-, -, ⟨he, -⟩ | ⟨-, hmode⟩⟩
    · exact he
    · exact he
    · exact absurd hmode hset.mode
  · have hl := h.lively hcalm
    have hmax : s.capacity < maxSize := lt_of_le_of_lt hl.capacity (by decide)
    have hb : Bounded s := fun _ => h.count_card ▸ p.card_le.trans_lt hl.peak
    obtain ⟨r, hr, -⟩ := h.toInv.add_returns (hset.powerOfTwo hcalm) hmax hb hset.fuel.le
      bUnique false key value
    rw [hr] at hrun
    cases hrun

theorem Tracks.callBool_add (h : Tracks c calm s p) (hset : Setting c fuel calm) {bUnique : Bool}
    {key : K} (hstale : key ∉ p.stale) (hunique : bUnique = true → key ∉ p.keys)
    (hsmall : calm → p.keys.card < 2 ^ 28) (value : K) :
    Exec.Ensures (callBool c fuel (.add bUnique key value) s)
      (fun r => (r.1 = true ↔ key ∉ p.keys) ∧ Tracks c calm r.2 (p.add key)) (Late calm) := by
  have hadd : Exec.Ensures (s.add c fuel bUnique false key value) _ _ := h.toInv.add_ensures
  have hrun := hadd.withValue.and_fault fun e he => he
  refine callBool_ensures ((hrun.imp (fun r hr => hr) ?_).bind ?_)
  · exact fun e he => h.add_fault hset he.1 he.2
  intro r hr
  obtain ⟨⟨b, index⟩, t⟩ := r
  obtain ⟨hr, hrun⟩ := hr
  have hstep : step c fuel s (.add bUnique key value) = .ok (.bool b, t) := by
    simp [step, hrun]
  have htouched := h.toInv.step_touched hstep
  refine ⟨b, rfl, ?_⟩
  cases hr with
  | inserted hslot ht =>
    have hnew : key ∉ p.keys := by
      intro hkey
      have hmisled := hslot.misled_add value (h.mem_iff.mp hkey)
      cases bUnique with
      | true => exact hunique rfl hkey
      | false => exact hstale (h.stale key hmisled)
    obtain ⟨e, hkey, -, hheld⟩ := ht.held
    refine ⟨iff_of_true rfl hnew, { ht.toInv with keys := ?_, stale := ?_, lively := ?_ }⟩
    · rw [hheld, Multiset.map_cons, h.keys, hkey, Phase.add, Finset.insert_val_of_notMem hnew]
    · intro k hk
      exact h.stale k (htouched.shadowed ht.toInv hset.fix (fun k' _ hop => by cases hop) hk)
    · intro hcalm
      exact (h.lively hcalm).inserted h.toInv (hset.powerOfTwo hcalm) h.count_card ht hnew
        (hsmall hcalm) (htouched.graves_le ht.toInv)
  | found hchecked hslot hlive hkey =>
    have hmem : key ∈ p.keys := h.mem_iff.mpr ⟨_, _, hlive, hkey⟩
    rw [Phase.add_of_mem hmem]
    exact ⟨iff_of_false (by simp) (not_not.mpr hmem), by simpa using h⟩

end Calls

end BenchHash

end SimdHash
