import SimdHash.HomeSlots
import SimdHash.Tombstones

/-! Where the homes of the keys that a table of a power of two holds differ,
every search ends in the home slot of its key: insertions and rebuilds put
each entry there, and a lookup finds it there. -/

namespace SimdHash

open BitMask OpenAddressing TagVector Transition

namespace Core

variable {K V : Type} {c : Template K} {s t source : Core K V} {fuel : ℕ}

/-- The slot that the hash of the key selects. -/
def home (c : Template K) (s : Core K V) (key : K) : ℕ := (c.hasher key).toNat % s.capacity

def AtHome (c : Template K) (s : Core K V) : Prop :=
  Homed (s.slots c) fun e => s.home c e.key

theorem home_congr (h : t.capacity = s.capacity) : t.home c = s.home c := by
  funext key
  rw [home, home, h]

theorem AtHome.congr (hat : AtHome c s) (h : t.capacity = s.capacity)
    (hslots : t.slots c = s.slots c) : AtHome c t := by
  rw [AtHome, hslots, home_congr h]
  exact hat

theorem AtHome.home_eq (h : AtHome c s) {i : ℕ} {e : Entry K V} (hlive : s.slots c i = .live e) :
    s.home c e.key = i := h i e hlive

theorem Geometry.windowBase_home (h : s.Geometry c) (hm : c.mode.isPowerOfTwo) (key : K) :
    s.windowBase c (c.hasher key) 0 = s.home c key := h.adjust_eq_mod_of_powerOfTwo hm _

theorem Geometry.home_lt (h : s.Geometry c) (key : K) : s.home c key < s.capacity :=
  Nat.mod_lt _ h.capacity_pos

theorem Table.home_mem (h : s.Table c) (hm : c.mode.isPowerOfTwo) (key : K) :
    s.home c key ∈ s.windows c (c.hasher key) 0 := by
  have hlt : s.home c key < s.tags.size := h.size_eq ▸ h.geometry.home_lt key
  rw [windows, h.geometry.windowBase_home hm]
  exact TagArray.mem_window (o := 0) (by decide) hlt

section Searching

theorem probe_first {β : Type} {visit : ℕ → Exec (Option β)} {hash : UInt64} {b : β}
    (h : visit (s.windowBase c hash 0) = .ok (some b)) (fuel : ℕ) :
    Exec.Ensures (s.probe c fuel visit hash) (fun b' => b' = b)
      (fun e => e = .timeout ∧ fuel = 0) := by
  have h' : visit (s.adjustTupleIndex c hash.toNat) = .ok (some b) := h
  cases fuel with
  | zero => exact ⟨rfl, rfl⟩
  | succ fuel => simp [probe, Exec.loop, h']

/-- `FindEmpty` takes the home slot if it is empty. -/
theorem Table.findEmpty_home (h : s.Table c) (hm : c.mode.isPowerOfTwo) {key : K}
    (hempty : s.slots c (s.home c key) = .empty) (fuel : ℕ) :
    Exec.Ensures (s.findEmpty c fuel (c.hasher key)) (fun i => i = s.home c key)
      (fun e => e = .timeout ∧ fuel = 0) := by
  have hbase := h.geometry.windowBase_home hm key
  have hlt : s.home c key < s.tags.size := h.size_eq ▸ h.geometry.home_lt key
  have hbit := (h.valid.testBit_getEmptyMask hlt (s.record c) 0).mpr ⟨by decide, hempty⟩
  have hne : getEmptyMask (s.tags.source (s.home c key)) ≠ 0 := ne_zero_iff.mpr ⟨0, hbit⟩
  have hfirst := trailingZeroCount_zero c.bFix hbit (TagArray.mask_lt _)
  refine probe_first ?_ fuel
  rw [hbase, findEmptyWindow, TagArray.load_of_lt hlt, Exec.ok_bind]
  simp [hne, hfirst]

/-- So does an insertion if it is free. -/
theorem FreeSlot.eq_home (h : s.Table c) (hm : c.mode.isPowerOfTwo) {bUnique : Bool} {key : K} {i : ℕ} (hslot : s.FreeSlot c bUnique key i)
    (hfree : ∀ e, s.slots c (s.home c key) ≠ .live e) : s.home c key = i := by
  obtain ⟨n, hbefore, hmem, -, hleast, -⟩ := hslot
  have hhome := h.home_mem hm key
  cases n with
  | zero =>
    have hge : s.windowBase c (c.hasher key) 0 ≤ i := hmem.1
    rw [h.geometry.windowBase_home hm] at hge
    by_contra hne
    have h12 := (hleast _ hhome hfree (lt_of_le_of_ne hge hne)).2
    rw [h.geometry.windowBase_home hm] at h12
    omega
  | succ n => exact absurd ⟨_, hhome, hfree⟩ (hbefore 0 (Nat.succ_pos n))

variable [DecidableEq K]

/-- A lookup of a key whose entry is in its home slot looks at nothing else. -/
theorem Layout.findEntry_home (h : s.Layout c) (hm : c.mode.isPowerOfTwo) {key : K} {e : Entry K V}
    (hlive : s.slots c (s.home c key) = .live e) (hkey : e.key = key) (fuel : ℕ) :
    Exec.Ensures (s.findEntry c fuel key) (fun r => r = some (s.ref c (s.home c key)))
      (fun e => e = .timeout ∧ fuel = 0) := by
  have hbase := h.geometry.windowBase_home hm key
  obtain ⟨hlt, htag, hrec⟩ := slots_eq_live.mp hlive
  have hcell := h.tagged _ e hlive
  rw [hkey] at hcell
  have hbit := (h.valid.testBit_getCmpMask hlt (hashToTag_lt (c.hasher key)) 0).mpr
    ⟨by decide, hlt, hcell⟩
  have hne := ne_zero_iff.mpr ⟨0, hbit⟩
  have hfirst := trailingZeroCount_zero c.bFix hbit (TagArray.mask_lt _)
  have hread : s.entries.read (s.ref c (s.home c key)) = .ok e := by
    rw [Block.read_of_lt (h.ref_lt hlt htag), ← hrec, record]
  cases fuel with
  | zero => exact ⟨rfl, rfl⟩
  | succ fuel =>
    refine probe_first ?_ (fuel + 1)
    have hmatch : s.findMatch c (fuel + 1) key (s.home c key)
        (getCmpMask (s.tags.source (s.home c key)) (hashToTag (c.hasher key))) =
        .ok (some (s.ref c (s.home c key))) := by
      simp [findMatch, Exec.loop, hne, hfirst, h.entryRef_eq hlt, hread, hkey]
    rw [hbase, findEntryWindow, TagArray.load_of_lt hlt, Exec.ok_bind, hmatch, Exec.ok_bind]

end Searching

section InPlace

variable {hand : Multiset (Entry K V)} {n i : ℕ} {e : Entry K V} {prevTags : TagArray}

/-- No two keys of the table have the same home. -/
def Spread (c : Template K) (s : Core K V) : Prop :=
  ((s.entriesHeld c).map fun e => s.home c e.key).Nodup

/-- The state of a rebuild that has put all entries in their homes. -/
structure Housed (c : Template K) (source : Core K V) (n : ℕ) (hand : Multiset (Entry K V))
    (prevTags : TagArray) (s : Core K V) : Prop extends Rebuild c source n hand prevTags s where
  atHome : AtHome c s

theorem Housed.home_empty (h : Housed c source n hand prevTags s) (hspread : Spread c source)
    (he : e ∈ hand) : s.slots c (s.home c e.key) = .empty := by
  have hhome : s.home c = source.home c := home_congr h.settings.capacity
  have hlt : s.home c e.key < s.tags.size := h.size_eq ▸ h.geometry.home_lt e.key
  have hnodup : ((s.entriesHeld c).map (fun e => s.home c e.key) +
      hand.map fun e => s.home c e.key).Nodup := by
    have hall := hspread
    rw [Spread, ← h.balance, ← hhome, add_assoc, add_comm (waiting prevTags s), ← add_assoc,
      Multiset.map_add, Multiset.map_add] at hall
    exact (Multiset.nodup_add.mp hall).1
  have hfree : ∀ e', s.slots c (s.home c e.key) ≠ .live e' := by
    intro e' hlive
    have hheld : e' ∈ s.entriesHeld c := mem_entriesHeld.mpr ⟨_, hlive⟩
    have heq : s.home c e'.key = s.home c e.key := h.atHome _ e' hlive
    exact Multiset.disjoint_left.mp (Multiset.nodup_add.mp hnodup).2.2
      (heq ▸ Multiset.mem_map_of_mem _ hheld) (Multiset.mem_map_of_mem _ he)
  refine TagArray.slots_eq_empty.mpr ⟨hlt, ?_⟩
  rcases h.valid.tag _ hlt with htag | htag | htag
  · exact absurd htag (TagArray.slots_not_live.mp hfree hlt)
  · exact htag
  · exact absurd htag (h.clean _ hlt)

/-- The search for the slot of an entry in hand. -/
theorem Housed.find_ensures (h : Housed c source n hand prevTags s) (hm : c.mode.isPowerOfTwo)
    (hspread : Spread c source) (he : e ∈ hand) (fuel : ℕ) :
    Exec.Ensures (s.findEmpty c fuel (c.hasher e.key))
      (fun i => s.home c e.key = i ∧ i < s.tags.size ∧
        FirstEmpty (s.slots c) (s.windows c (c.hasher e.key)) i) (fun _ => True) := by
  have hempty := h.home_empty hspread he
  have hmem := h.home_mem hm e.key
  refine (h.toTable.findEmpty_home hm hempty fuel).imp ?_ fun _ _ => trivial
  intro i hi
  subst i
  exact ⟨rfl, hmem.2.2, 0, hmem, hempty, by simp⟩

theorem Housed.put (ht : c.type ≠ .index) (h : Housed c source n (e ::ₘ hand) prevTags s)
    (hhome : s.home c e.key = i) (hi : i < s.tags.size)
    (hfirst : FirstEmpty (s.slots c) (s.windows c (c.hasher e.key)) i)
    (hprev : ∀ e, prevTags.slots s.entries.cell i ≠ .live e) :
    Housed c source n hand prevTags (placed c s i e) := by
  refine { h.toRebuild.put ht hi hfirst hprev with atHome := ?_ }
  rw [AtHome, h.slots_placed hi, home_congr (show (placed c s i e).capacity = s.capacity from rfl)]
  exact h.atHome.fill hhome

/-- The entry in hand has its home at a slot where another one waits. -/
structure HousedChain (c : Template K) (source : Core K V) (n : ℕ) (e : Entry K V) (i : ℕ)
    (prevTags : TagArray) (s : Core K V) : Prop extends Chain c source n e i prevTags s where
  atHome : AtHome c s
  home_eq : s.home c e.key = i

theorem HousedChain.swap (ht : c.type ≠ .index) (h : HousedChain c source n e i prevTags s) :
    ∃ saved, prevTags.slots s.entries.cell i = .live saved ∧
      prevTags.cell i = hashToTag (c.hasher saved.key) ∧
      Housed c source n {saved} (prevTags.set i TagVector.empty) (placed c s i e) := by
  obtain ⟨saved, hlive, htag, hput, -⟩ := h.toChain.swap ht
  refine ⟨saved, hlive, htag, { hput with atHome := ?_ }⟩
  rw [AtHome, h.slots_placed h.slot_lt,
    home_congr (show (placed c s i e).capacity = s.capacity from rfl)]
  exact h.atHome.fill h.home_eq

theorem HousedChain.round_ensures (ht : c.type ≠ .index) (hm : c.mode.isPowerOfTwo)
    (hspread : Spread c source) (h : HousedChain c source n e i prevTags s) :
    Exec.Ensures
      (displaceRound c fuel (prevTags, s, hashToTag (c.hasher e.key), e, i))
      (Sum.elim
        (fun st => ∃ prevTags t e j, st = (prevTags, t, hashToTag (c.hasher e.key), e, j) ∧
          HousedChain c source n e j prevTags t)
        fun r => Housed c source n 0 r.1 r.2) (fun _ => True) := by
  obtain ⟨saved, hlive, htag, hput⟩ := h.swap ht
  obtain ⟨hiprev, -, hrec⟩ := TagArray.slots_eq_live.mp hlive
  have hie : i < s.entries.size := by
    rw [h.entries_size ht, ← h.size_eq]
    exact h.slot_lt
  simp only [displaceRound, Block.read_of_lt hiprev, Block.write_of_lt hiprev,
    Block.read_of_lt hie, h.place_eq ht h.slot_lt e, hrec, htag, Exec.ok_bind]
  refine (hput.find_ensures hm hspread (Multiset.mem_singleton_self saved) fuel).bind ?_
  intro j hj
  obtain ⟨hhome, hj, hfirst⟩ := hj
  obtain ⟨b, hb, hbiff⟩ := vacated_eq (prevTags.set i TagVector.empty)
    (placed c s i e).entries.cell j
  simp only [hb, Exec.ok_bind]
  by_cases hvac : b = true
  · rw [if_pos hvac, hput.place_eq ht hj saved]
    exact hput.put ht hhome hj hfirst (hbiff.mp hvac)
  · rw [if_neg hvac]
    have hwait := hbiff.not.mp hvac
    push Not at hwait
    exact ⟨_, _, saved, j, rfl, ⟨hput.toRebuild, hj, hfirst, hwait⟩, hput.atHome, hhome⟩

theorem HousedChain.displace_ensures (ht : c.type ≠ .index) (hm : c.mode.isPowerOfTwo)
    (hspread : Spread c source) (h : HousedChain c source n e i prevTags s) :
    Exec.Ensures (displace c fuel prevTags s (hashToTag (c.hasher e.key)) e i)
      (fun r => Housed c source n 0 r.1 r.2) (fun _ => True) := by
  refine Exec.ensures_loop (I := fun _ st =>
    ∃ prevTags s e i, st = (prevTags, s, hashToTag (c.hasher e.key), e, i) ∧
      HousedChain c source n e i prevTags s) ?_ ?_ ?_
  · exact ⟨prevTags, s, e, i, rfl, h⟩
  · intro _ _ _ hI
    obtain ⟨prevTags', t, e', j, rfl, hchain⟩ := hI
    exact hchain.round_ensures ht hm hspread
  · exact fun _ _ => trivial

theorem Housed.rehashSlot_ensures (ht : c.type ≠ .index) (hm : c.mode.isPowerOfTwo)
    (hspread : Spread c source) (h : Housed c source n 0 prevTags s) (hn : n < source.tags.size) :
    Exec.Ensures (rehashSlot c fuel n (prevTags, s))
      (fun r => Housed c source (n + 1) 0 r.1 r.2) (fun _ => True) := by
  have hnprev : n < prevTags.size := h.prev_size ▸ hn
  have hns : n < s.tags.size := hn.trans_le h.prev_le
  have hne : n < s.entries.size := by rwa [h.entries_size ht, ← h.size_eq]
  simp only [rehashSlot, Block.read_of_lt hnprev, Exec.ok_bind]
  by_cases hlive : prevTags.cell n < 0x80
  · obtain ⟨htag, htake, hvac⟩ := h.turn hn hlive
    have htake : Housed c source (n + 1) {s.entries.cell n} (prevTags.set n TagVector.empty) s :=
      { htake with atHome := h.atHome }
    have hmask : prevTags.cell n &&& TagVector.empty = 0 := (land_empty_eq_zero _).mpr hlive
    simp only [hmask, ne_eq, not_true_eq_false, if_false, Block.read_of_lt hne, Exec.ok_bind]
    refine (htake.find_ensures hm hspread (Multiset.mem_singleton_self _) fuel).bind ?_
    intro i hfound
    obtain ⟨hhome, hi, hfirst⟩ := hfound
    simp only [Block.write_of_lt hnprev, Exec.ok_bind]
    by_cases hin : i = n
    · rw [hin] at hhome hfirst
      have hplaced : { s with tags := s.tags.set n (prevTags.cell n), count := s.count + 1 } =
          placed c s n (s.entries.cell n) := by
        simp [placed, ht, htag]
      simp only [if_pos hin, Block.write_of_lt hns, Exec.ok_bind, Exec.ensures_ok, hplaced]
      exact htake.put ht hhome hns hfirst hvac
    · obtain ⟨b, hb, hbiff⟩ := vacated_eq (prevTags.set n TagVector.empty) s.entries.cell i
      simp only [if_neg hin, hb, Exec.ok_bind]
      by_cases hvac' : b = true
      · rw [if_pos hvac', htag, h.place_eq ht hi]
        exact htake.put ht hhome hi hfirst (hbiff.mp hvac')
      · rw [if_neg hvac', htag]
        have hwait := hbiff.not.mp hvac'
        push Not at hwait
        exact HousedChain.displace_ensures ht hm hspread
          ⟨⟨htake.toRebuild, hi, hfirst, hwait⟩, h.atHome, hhome⟩
  · have hmask : prevTags.cell n &&& TagVector.empty ≠ 0 := (land_empty_eq_zero _).not.mpr hlive
    rw [if_pos hmask]
    exact { h.next (TagArray.slots_not_live.mpr fun _ => hlive) with atHome := h.atHome }

end InPlace

section Dense

variable {start : Core K V} {n : ℕ}

theorem Reindex.home_empty (ht : c.type = .index) (h : Reindex c start n s) (hat : AtHome c s)
    (hspread : ((Multiset.range start.count).map fun j =>
      start.home c (start.entries.cell j).key).Nodup)
    (hn : n < start.count) : s.slots c (s.home c (s.entries.cell n).key) = .empty := by
  have hhome : s.home c = start.home c := home_congr h.settings.capacity
  have hlt : s.home c (s.entries.cell n).key < s.tags.size :=
    h.layout.size_eq ▸ h.layout.geometry.home_lt _
  have hfree : ∀ e', s.slots c (s.home c (s.entries.cell n).key) ≠ .live e' := by
    intro e' hlive
    have hheld : e' ∈ entriesHeld c { s with count := n } := mem_entriesHeld.mpr ⟨_, hlive⟩
    rw [h.layout.entriesHeld_index ht] at hheld
    obtain ⟨j, hj, rfl⟩ := Multiset.mem_map.mp hheld
    have hjn : j < n := Multiset.mem_range.mp hj
    have heq : s.home c (s.entries.cell j).key = s.home c (s.entries.cell n).key := hat _ _ hlive
    rw [hhome, h.entries] at heq
    have hsame := (Multiset.nodup_map_iff_inj_on (Multiset.nodup_range _)).mp hspread j
      (Multiset.mem_range.mpr (hjn.trans hn)) n (Multiset.mem_range.mpr hn) heq
    exact absurd hsame hjn.ne
  refine TagArray.slots_eq_empty.mpr ⟨hlt, ?_⟩
  rcases h.layout.valid.tag _ hlt with htag | htag | htag
  · exact absurd htag (TagArray.slots_not_live.mp hfree hlt)
  · exact htag
  · exact absurd htag (h.clean _ hlt)

theorem Reindex.reindexKey_home (ht : c.type = .index) (hm : c.mode.isPowerOfTwo)
    (h : Reindex c start n s) (hat : AtHome c s)
    (hempty : s.slots c (s.home c (s.entries.cell n).key) = .empty)
    (hn : n < start.count) (hle : start.count ≤ start.entries.size) :
    Exec.Ensures (reindexKey c fuel n s) (AtHome c) (fun _ => True) := by
  have hread : s.entries.read n = .ok (s.entries.cell n) :=
    Block.read_of_lt (h.entries ▸ hn.trans_le hle)
  have hshape : SameShape { s with count := n } s := ⟨rfl, rfl, rfl, rfl⟩
  have htable : s.Table c := hshape.table h.layout.toTable h.layout.valid
  simp only [reindexKey, hread, Exec.ok_bind]
  refine ((htable.findEmpty_home hm hempty fuel).imp (fun i hi => hi) fun _ _ => trivial).bind ?_
  intro i hi
  have hlt : i < s.tags.size := hi ▸ (TagArray.slots_eq_empty.mp hempty).1
  have hr : i < s.realIndex.size := by
    have hsize : s.realIndex.size = s.capacity := h.layout.realIndex_size ht
    rwa [hsize, ← h.layout.size_eq]
  have hslots := h.layout.slots_placed (e := s.entries.cell n) hlt
  have hplaced : AtHome c (placed c { s with count := n } i (s.entries.cell n)) := by
    rw [AtHome, hslots]
    exact Homed.fill (fun j e' hj => hat j e' hj) hi.symm
  simp only [Block.write_of_lt hlt, Block.write_of_lt hr, Exec.ok_bind, Exec.ensures_ok]
  refine hplaced.congr rfl (slots_congr ?_ ?_ ?_) <;> simp [placed, ht]

end Dense

section Rebuilds

theorem Stored.rehashInternal_home (h : s.Stored c) (hm : c.mode.isPowerOfTwo)
    (hspread : Spread c s) (hgrow : c.type = .index → s.tags.size < s.capacity) (fuel : ℕ) :
    Exec.Ensures (rehashInternal c fuel s s.capacity) (AtHome c) (fun _ => True) := by
  by_cases ht : c.type = .index
  · rw [h.reindex_eq ht fuel (hgrow ht)]
    set tags : TagArray := { s.tags with size := s.capacity }
    have hdense : ((Multiset.range s.count).map fun j => s.home c (s.entries.cell j).key).Nodup := by
      rw [Spread, h.index_dense ht, Multiset.map_map] at hspread
      exact hspread
    refine (Exec.ensures_forRange
      (I := fun n u => Reindex c { s with tags := tags.fill } n u ∧ AtHome c u) ⟨?_, ?_⟩ ?_).mono
      fun u hu => hu.2
    · exact ⟨Layout.emptied h.geometry h.entries_size h.realIndex_size h.index_page,
        ⟨⟨rfl, rfl, rfl, rfl⟩, rfl, rfl⟩, TagArray.fill_clean tags, rfl, rfl⟩
    · exact homed_of_not_live fun _ _ => TagArray.fill_not_live _
    · intro n u hn hu
      obtain ⟨hr, hat⟩ := hu
      have hempty := hr.home_empty ht hat hdense hn
      have hhome : Exec.Ensures (reindexKey c fuel n u) (AtHome c) _ :=
        hr.reindexKey_home ht hm hat hempty hn (h.index_count ht)
      refine (hr.reindexKey_ensures ht hn (h.index_count ht)).withValue.imp ?_ fun _ _ => trivial
      intro v hv
      exact ⟨hv.1, hhome.value hv.2⟩
  · rw [h.rehashInternal_eq ht]
    have hrun : Exec.Ensures (Exec.forRange s.tags.size (rehashSlot c fuel) (s.tags, emptied s))
        (fun r => Housed c s s.tags.size 0 r.1 r.2) (fun _ => True) := by
      refine Exec.ensures_forRange
        (I := fun n (r : TagArray × Core K V) => Housed c s n 0 r.1 r.2) ?_ ?_
      · exact { h.rebuild_start ht with atHome := homed_of_not_live fun _ _ => slots_emptied _ }
      · intro n r hn hr
        exact hr.rehashSlot_ensures ht hm hspread hn
    refine hrun.bind fun r hr => ?_
    exact (Exec.ensures_assert fun _ _ => trivial).bind fun _ _ => hr.atHome

/-- Keys with different homes have different ones in a larger table, too. -/
theorem AtHome.spread (hat : AtHome c s) {t : Core K V} (hdvd : s.capacity ∣ t.capacity)
    (hheld : t.entriesHeld c = s.entriesHeld c) : Spread c t := by
  have hnodup : ((s.entriesHeld c).map fun e => s.home c e.key).Nodup := hat.nodup
  have hmod : (s.home c · ) = fun key => t.home c key % s.capacity := by
    funext key
    exact (Nat.mod_mod_of_dvd _ hdvd).symm
  rw [Spread, hheld]
  refine Multiset.Nodup.of_map (fun i => i % s.capacity) ?_
  rw [Multiset.map_map]
  simpa [hmod] using hnodup

end Rebuilds

end Core

end SimdHash
