import SimdHash.Invariant

/-! Rebuilding a table from the entries it holds. A `Map` or `Set` moves its
entries within one array, with at most one of them in hand, so the entries in
the new table, those still waiting and the one in hand are at all times the
entries of the old table. -/

namespace SimdHash

open OpenAddressing TagVector

namespace Core

variable {K V : Type} {c : Template K} {s t : Core K V} {fuel : ℕ}

/-- A rebuild only fails by running out of fuel, where the new table may be too small for it. -/
def Stuck (capacity fuel count : ℕ) (e : Fault) : Prop :=
  e = .timeout ∧ ¬ Roomy capacity fuel count

theorem Layout.findEmpty_ensures (h : s.Layout c) (fuel : ℕ)
    (hclean : s.tags.Clean) {count : ℕ}
    (hcount : (s.entriesHeld c).card < count) (hash : UInt64) :
    Exec.Ensures (s.findEmpty c fuel hash)
      (fun i => i < s.tags.size ∧ FirstEmpty (s.slots c) (s.windows c hash) i)
      (Stuck s.capacity fuel count) := by
  refine (h.toTable.findEmpty_ensures hash).imp ?_ ?_
  · intro i hi
    obtain ⟨n, hbefore, hmem, hempty⟩ := hi
    exact ⟨hmem.2.2, n, hmem, hempty, hbefore⟩
  · intro e he
    obtain ⟨rfl, hall⟩ := he
    refine ⟨rfl, fun hroom => ?_⟩
    obtain ⟨n, hn, hfree⟩ := h.geometry.hasFree h.size_eq hroom hcount hash
    exact hall n hn (h.hasEmpty hclean hfree)

section Searching

/-- The rebuild of `s` comes with `prevTags` and `u` to slot `i`, where an entry waits. -/
structure Turn (c : Template K) (fuel : ℕ) (s : Core K V) (i : ℕ) (prevTags : TagArray)
    (u : Core K V) : Prop where
  run : Exec.forRange i (rehashSlot c fuel) (s.tags, emptied s) = .ok (prevTags, u)
  lt : i < s.tags.size
  waits : prevTags.cell i < 0x80

/-- The calls of `FindEmpty` that a rebuild of `s` makes, each with the table
it searches and the hash it searches for. -/
inductive Searches (c : Template K) (fuel : ℕ) (s : Core K V) : Core K V → UInt64 → Prop
  | slot {i : ℕ} {prevTags : TagArray} {u : Core K V} : Turn c fuel s i prevTags u →
      Searches c fuel s u (c.hasher (u.entries.cell i).key)
  | chain {i j k : ℕ} {prevTags prevTags' : TagArray} {u v w : Core K V} {tag : UInt8}
      {entry : Entry K V} : Turn c fuel s i prevTags u →
      u.findEmpty c fuel (c.hasher (u.entries.cell i).key) = .ok j → j ≠ i →
      vacated (prevTags.set i TagVector.empty) j = .ok false →
      Exec.Rounds (displaceRound c fuel)
        (prevTags.set i TagVector.empty, u, prevTags.cell i, u.entries.cell i, j)
        (prevTags', v, tag, entry, k) →
      v.place k tag entry = .ok w → Searches c fuel s w (c.hasher (v.entries.cell k).key)

/-- Every search of the rebuild of `s` finds a slot or faults within `E`, and
so does a chain of displacements that is longer than the fuel. -/
structure Served (c : Template K) (fuel : ℕ) (s : Core K V) (E : Fault → Prop) : Prop where
  find : ∀ u hash, Searches c fuel s u hash → u.Layout c → u.tags.Clean →
    u.capacity = s.capacity → (u.entriesHeld c).card < (s.entriesHeld c).card →
    Exec.Ensures (u.findEmpty c fuel hash)
      (fun i => i < u.tags.size ∧ FirstEmpty (u.slots c) (u.windows c hash) i) E
  chain : fuel < (s.entriesHeld c).card → E .timeout

end Searching

section InPlace

/-- The entries of the old table that have not been moved. -/
def waiting (prevTags : TagArray) (s : Core K V) : Multiset (Entry K V) :=
  content (Finset.range prevTags.size) (prevTags.slots s.entries.cell)

/-- The state of the rebuild of a `Map` or `Set`, whose old table is `source`,
before slot `n` of it, with the entries `hand` in hand. -/
structure Rebuild (c : Template K) (source : Core K V) (n : ℕ) (hand : Multiset (Entry K V))
    (prevTags : TagArray) (s : Core K V) : Prop extends Layout c s where
  settings : SameSettings (emptied source) s
  clean : s.tags.Clean
  prev_size : prevTags.size = source.tags.size
  prev_le : source.tags.size ≤ s.tags.size
  old : ∀ j e, prevTags.slots s.entries.cell j = .live e →
    n ≤ j ∧ prevTags.cell j = hashToTag (c.hasher e.key) ∧ ∀ e', s.slots c j ≠ .live e'
  balance : s.entriesHeld c + waiting prevTags s + hand = source.entriesHeld c
  count_eq : s.count = (s.entriesHeld c).card
  filled : Filled (fun e => (emptied source).windows c (c.hasher e.key))
    ((emptied source).slots c) (s.slots c)

variable {source : Core K V} {hand : Multiset (Entry K V)} {n i : ℕ} {e : Entry K V}
  {prevTags : TagArray} {E : Fault → Prop}

theorem Rebuild.next (h : Rebuild c source n hand prevTags s)
    (hn : ∀ e, prevTags.slots s.entries.cell n ≠ .live e) :
    Rebuild c source (n + 1) hand prevTags s := by
  refine { h with old := ?_ }
  intro j e hj
  obtain ⟨hle, htag, hfree⟩ := h.old j e hj
  have hne : j ≠ n := by
    rintro rfl
    exact hn e hj
  exact ⟨by omega, htag, hfree⟩

theorem Rebuild.take (h : Rebuild c source n hand prevTags s)
    (hlive : prevTags.slots s.entries.cell i = .live e) :
    Rebuild c source n (e ::ₘ hand) (prevTags.set i empty) s := by
  have hi := (TagArray.slots_eq_live.mp hlive).1
  have hslots := TagArray.slots_set_empty s.entries.cell hi
  refine { h with old := ?_, prev_size := h.prev_size, balance := ?_ }
  · intro j e' hj
    rw [hslots] at hj
    have hji : j ≠ i := by
      rintro rfl
      simp at hj
    simpa [hji] using h.old j e' (by simpa [hji] using hj)
  · have hwait := content_bury (Finset.mem_range.mpr hi) hlive held_empty
    rw [← h.balance, waiting, waiting, hslots, hwait]
    simp only [← Multiset.singleton_add, Block.set_size]
    ac_rfl

theorem Rebuild.put (ht : c.type ≠ .index) (h : Rebuild c source n (e ::ₘ hand) prevTags s)
    (hi : i < s.tags.size) (hfirst : FirstEmpty (s.slots c) (s.windows c (c.hasher e.key)) i)
    (hprev : ∀ e, prevTags.slots s.entries.cell i ≠ .live e) :
    Rebuild c source n hand prevTags (placed c s i e) := by
  have hfree : ∀ e', s.slots c i ≠ .live e' := by simp [hfirst.empty]
  have hslots := h.slots_placed (e := e) hi
  have hprevSlots : prevTags.slots (placed c s i e).entries.cell = prevTags.slots s.entries.cell := by
    funext j
    by_cases hji : j = i
    · subst j
      have hdead := TagArray.slots_not_live.mp hprev
      simp only [TagArray.slots]
      split_ifs with h1
      · exact absurd h1.2 (hdead h1.1)
      · rfl
      · rfl
    · simp [TagArray.slots, placed, ht, hji]
  refine
    { h.toLayout.placed hi hfree hfirst.reached fun hx => absurd hx ht with
      settings := h.settings.trans placed_sameSettings
      clean := h.clean.set (hashToTag_lt _)
      prev_size := h.prev_size
      prev_le := h.prev_le
      old := ?_
      balance := ?_
      count_eq := ?_
      filled := ?_ }
  · intro j e' hj
    rw [hprevSlots] at hj
    have hji : j ≠ i := by
      rintro rfl
      exact hprev e' hj
    obtain ⟨hle, htag, hdead⟩ := h.old j e' hj
    refine ⟨hle, htag, fun e'' => ?_⟩
    rw [hslots, Function.update_of_ne hji]
    exact hdead e''
  · rw [h.entriesHeld_placed hi hfree, waiting, hprevSlots, ← h.balance, waiting]
    simp only [← Multiset.singleton_add]
    ac_rfl
  · rw [h.entriesHeld_placed hi hfree, Multiset.card_cons, ← h.count_eq]
    rfl
  · rw [h.settings.windows_eq] at hfirst
    rw [hslots]
    exact h.filled.put hfirst

theorem Rebuild.held_lt (h : Rebuild c source n (e ::ₘ hand) prevTags s) :
    (s.entriesHeld c).card < (source.entriesHeld c).card := by
  have hcard := congrArg Multiset.card h.balance
  simp only [Multiset.card_add, Multiset.card_cons] at hcard
  omega

theorem vacated_eq (prevTags : TagArray) (record : ℕ → Entry K V) (i : ℕ) :
    ∃ b, vacated prevTags i = .ok b ∧ (b = true ↔ ∀ e, prevTags.slots record i ≠ .live e) := by
  rw [TagArray.slots_not_live]
  by_cases hi : i < prevTags.size
  · refine ⟨prevTags.cell i &&& TagVector.empty ≠ 0, ?_, ?_⟩
    · simp [vacated, not_le.mpr hi, Block.read_of_lt hi]
    · simp [hi, land_empty_eq_zero]
  · exact ⟨true, if_pos (not_lt.mp hi), by simp [hi]⟩

theorem Rebuild.place_eq (ht : c.type ≠ .index) (h : Rebuild c source n hand prevTags s)
    (hi : i < s.tags.size) (e : Entry K V) :
    s.place i (hashToTag (c.hasher e.key)) e = .ok (placed c s i e) := by
  have he : i < s.entries.size := by rwa [h.entries_size ht, ← h.size_eq]
  simp [place, Block.write_of_lt hi, Block.write_of_lt he, placed, ht]

theorem Served.find_ensures (hserved : Served c fuel source E) {hash : UInt64}
    (hsearch : Searches c fuel source s hash) (h : Rebuild c source n hand prevTags s)
    (hheld : (s.entriesHeld c).card < (source.entriesHeld c).card) :
    Exec.Ensures (s.findEmpty c fuel hash)
      (fun i => i < s.tags.size ∧ FirstEmpty (s.slots c) (s.windows c hash) i) E :=
  hserved.find s hash hsearch h.toLayout h.clean h.settings.capacity hheld

/-- A chain of displacements holds one entry, and the slot found for it, at
which another one waits. -/
structure Chain (c : Template K) (source : Core K V) (n : ℕ) (e : Entry K V) (i : ℕ)
    (prevTags : TagArray) (s : Core K V) : Prop extends Rebuild c source n {e} prevTags s where
  slot_lt : i < s.tags.size
  slot_first : FirstEmpty (s.slots c) (s.windows c (c.hasher e.key)) i
  slot_waits : ∃ e', prevTags.slots s.entries.cell i = .live e'

theorem Chain.swap (ht : c.type ≠ .index) (h : Chain c source n e i prevTags s) :
    ∃ saved, prevTags.slots s.entries.cell i = .live saved ∧
      prevTags.cell i = hashToTag (c.hasher saved.key) ∧
      Rebuild c source n {saved} (prevTags.set i TagVector.empty) (placed c s i e) ∧
      ((placed c s i e).entriesHeld c).card < (source.entriesHeld c).card := by
  obtain ⟨saved, hlive⟩ := h.slot_waits
  have hi := (TagArray.slots_eq_live.mp hlive).1
  obtain ⟨-, htag, -⟩ := h.old i saved hlive
  have htake : Rebuild c source n (e ::ₘ {saved}) (prevTags.set i TagVector.empty) s := by
    rw [← Multiset.singleton_add, add_comm, Multiset.singleton_add]
    exact h.take hlive
  have hvac : ∀ e, TagArray.slots (prevTags.set i TagVector.empty) s.entries.cell i ≠ .live e := by
    intro e'
    rw [TagArray.slots_set_empty _ hi]
    simp
  have hput := htake.put ht h.slot_lt h.slot_first hvac
  exact ⟨saved, hlive, htag, hput, hput.held_lt⟩

/-- One round of a chain: it goes on with another entry in hand, or ends with none. -/
theorem Chain.round_ensures (ht : c.type ≠ .index) (h : Chain c source n e i prevTags s)
    (hfind : ∀ saved, prevTags.slots s.entries.cell i = .live saved →
      Exec.Ensures ((placed c s i e).findEmpty c fuel (c.hasher saved.key))
        (fun k => k < (placed c s i e).tags.size ∧ FirstEmpty ((placed c s i e).slots c)
          ((placed c s i e).windows c (c.hasher saved.key)) k) E) :
    Exec.Ensures
      (displaceRound c fuel (prevTags, s, hashToTag (c.hasher e.key), e, i))
      (Sum.elim
        (fun st => ∃ prevTags t e j, st = (prevTags, t, hashToTag (c.hasher e.key), e, j) ∧
          Chain c source n e j prevTags t ∧ t.count = s.count + 1)
        fun r => Rebuild c source n 0 r.1 r.2) E := by
  obtain ⟨saved, hlive, htag, hput, -⟩ := h.swap ht
  obtain ⟨hiprev, -, hrec⟩ := TagArray.slots_eq_live.mp hlive
  have hie : i < s.entries.size := by
    rw [h.entries_size ht, ← h.size_eq]
    exact h.slot_lt
  simp only [displaceRound, Block.read_of_lt hiprev, Block.write_of_lt hiprev,
    Block.read_of_lt hie, h.place_eq ht h.slot_lt e, hrec, htag, Exec.ok_bind]
  refine (hfind saved hlive).bind ?_
  intro j hj
  obtain ⟨hj, hfirst⟩ := hj
  obtain ⟨b, hb, hbiff⟩ := vacated_eq (prevTags.set i TagVector.empty)
    (placed c s i e).entries.cell j
  simp only [hb, Exec.ok_bind]
  by_cases hvac : b = true
  · rw [if_pos hvac, hput.place_eq ht hj saved]
    exact hput.put ht hj hfirst (hbiff.mp hvac)
  · rw [if_neg hvac]
    have hwait := hbiff.not.mp hvac
    push Not at hwait
    exact ⟨_, _, saved, j, rfl, ⟨hput, hj, hfirst, hwait⟩, rfl⟩

/-- What a chain of displacements does until the next slot is vacated. -/
theorem Chain.displace_ensures (ht : c.type ≠ .index) (hserved : Served c fuel source E)
    (h : Chain c source n e i prevTags s)
    (hsearch : ∀ prevTags' t e' j w, Exec.Rounds (displaceRound c fuel)
      (prevTags, s, hashToTag (c.hasher e.key), e, i)
      (prevTags', t, hashToTag (c.hasher e'.key), e', j) →
      t.place j (hashToTag (c.hasher e'.key)) e' = .ok w →
      Searches c fuel source w (c.hasher (t.entries.cell j).key)) :
    Exec.Ensures (displace c fuel prevTags s (hashToTag (c.hasher e.key)) e i)
      (fun r => Rebuild c source n 0 r.1 r.2) E := by
  refine Exec.ensures_loop_rounds (I := fun k st =>
    ∃ prevTags s e i, st = (prevTags, s, hashToTag (c.hasher e.key), e, i) ∧
      Chain c source n e i prevTags s ∧ k ≤ s.count) ?_ ?_ ?_
  · exact ⟨prevTags, s, e, i, rfl, h, Nat.zero_le _⟩
  · intro k _ _ hrounds hI
    obtain ⟨prevTags', t, e', j, rfl, hchain, hk⟩ := hI
    refine Exec.Ensures.mono (hchain.round_ensures ht ?_) fun r hr => ?_
    · intro saved hlive
      obtain ⟨saved', hlive', -, hput, hheld⟩ := hchain.swap ht
      have hsearch' := hsearch _ _ _ _ _ hrounds (hchain.place_eq ht hchain.slot_lt e')
      have hrec := (TagArray.slots_eq_live.mp hlive).2.2
      rw [hrec] at hsearch'
      exact hserved.find_ensures hsearch' hput hheld
    · cases r with
      | inl st =>
        obtain ⟨prevTags'', t', e'', j', rfl, hchain', hcount⟩ := hr
        exact ⟨prevTags'', t', e'', j', rfl, hchain', by omega⟩
      | inr r => exact hr
  · intro _ hI
    obtain ⟨prevTags', t, e', j, rfl, hchain, hk⟩ := hI
    obtain ⟨_, -, -, hput, hheld⟩ := hchain.swap ht
    have hcount := hput.count_eq
    have hnext : (placed c t j e').count = t.count + 1 := rfl
    exact hserved.chain (by omega)

theorem Rebuild.turn (h : Rebuild c source n 0 prevTags s) (hn : n < source.tags.size)
    (hlive : prevTags.cell n < 0x80) :
    prevTags.cell n = hashToTag (c.hasher (s.entries.cell n).key) ∧
    Rebuild c source (n + 1) {s.entries.cell n} (prevTags.set n TagVector.empty) s ∧
    ∀ e, TagArray.slots (prevTags.set n TagVector.empty) s.entries.cell n ≠ .live e := by
  have hnprev : n < prevTags.size := h.prev_size ▸ hn
  have hslot : prevTags.slots s.entries.cell n = .live (s.entries.cell n) :=
    TagArray.slots_eq_live.mpr ⟨hnprev, hlive, rfl⟩
  obtain ⟨-, htag, -⟩ := h.old n _ hslot
  have hvac : ∀ e, TagArray.slots (prevTags.set n TagVector.empty) s.entries.cell n ≠ .live e := by
    intro e'
    rw [TagArray.slots_set_empty _ hnprev]
    simp
  exact ⟨htag, (h.take hslot).next hvac, hvac⟩

theorem Rebuild.rehashSlot_ensures (ht : c.type ≠ .index) (hserved : Served c fuel source E)
    (h : Rebuild c source n 0 prevTags s)
    (hrun : Exec.forRange n (rehashSlot c fuel) (source.tags, emptied source) = .ok (prevTags, s))
    (hn : n < source.tags.size) :
    Exec.Ensures (rehashSlot c fuel n (prevTags, s))
      (fun r => Rebuild c source (n + 1) 0 r.1 r.2) E := by
  have hnprev : n < prevTags.size := h.prev_size ▸ hn
  have hns : n < s.tags.size := hn.trans_le h.prev_le
  have hne : n < s.entries.size := by rwa [h.entries_size ht, ← h.size_eq]
  simp only [rehashSlot, Block.read_of_lt hnprev, Exec.ok_bind]
  by_cases hlive : prevTags.cell n < 0x80
  · have hturn : Turn c fuel source n prevTags s := ⟨hrun, hn, hlive⟩
    obtain ⟨htag, htake, hvac⟩ := h.turn hn hlive
    have hmask : prevTags.cell n &&& TagVector.empty = 0 := (land_empty_eq_zero _).mpr hlive
    simp only [hmask, ne_eq, not_true_eq_false, if_false, Block.read_of_lt hne, Exec.ok_bind]
    refine (hserved.find_ensures (.slot hturn) h htake.held_lt).withValue.bind ?_
    intro i hfound
    obtain ⟨⟨hi, hfirst⟩, hvalue⟩ := hfound
    simp only [Block.write_of_lt hnprev, Exec.ok_bind]
    by_cases hin : i = n
    · subst i
      have hplaced : { s with tags := s.tags.set n (prevTags.cell n), count := s.count + 1 } =
          placed c s n (s.entries.cell n) := by
        simp [placed, ht, htag]
      simp only [if_true, Block.write_of_lt hns, Exec.ok_bind, Exec.ensures_ok, hplaced]
      exact htake.put ht hns hfirst hvac
    · obtain ⟨b, hb, hbiff⟩ := vacated_eq (prevTags.set n TagVector.empty) s.entries.cell i
      simp only [if_neg hin, hb, Exec.ok_bind]
      by_cases hvac' : b = true
      · rw [if_pos hvac', htag, h.place_eq ht hi]
        exact htake.put ht hi hfirst (hbiff.mp hvac')
      · rw [if_neg hvac', htag]
        have hwait := hbiff.not.mp hvac'
        push Not at hwait
        have hchain : Chain c source (n + 1) (s.entries.cell n) i (prevTags.set n TagVector.empty) s :=
          ⟨htake, hi, hfirst, hwait⟩
        refine hchain.displace_ensures ht hserved ?_
        intro prevTags' t e' j w hrounds hplace
        rw [← htag] at hrounds
        exact .chain hturn hvalue hin (by rw [hb, eq_false_of_ne_true hvac']) hrounds hplace
  · have hmask : prevTags.cell n &&& TagVector.empty ≠ 0 := (land_empty_eq_zero _).not.mpr hlive
    rw [if_pos hmask]
    exact h.next (TagArray.slots_not_live.mpr fun _ => hlive)


end InPlace

section Dense

/-- The state of a rebuild of an `Index` before key `n` of the dense array. -/
structure Reindex (c : Template K) (start : Core K V) (n : ℕ) (s : Core K V) : Prop where
  layout : Layout c { s with count := n }
  settings : SameSettings start s
  clean : s.tags.Clean
  entries : s.entries = start.entries
  count : s.count = start.count

variable {start : Core K V} {n : ℕ}

theorem Reindex.reindexKey_ensures (ht : c.type = .index) (h : Reindex c start n s)
    (hn : n < start.count) (hle : start.count ≤ start.entries.size) :
    Exec.Ensures (reindexKey c fuel n s) (Reindex c start (n + 1))
      (Stuck start.capacity fuel start.count) := by
  have hread : s.entries.read n = .ok (s.entries.cell n) :=
    Block.read_of_lt (h.entries ▸ hn.trans_le hle)
  have hheld : (entriesHeld c { s with count := n }).card = n := by
    rw [h.layout.entriesHeld_index ht, Multiset.card_map, Multiset.card_range]
  have hfind := h.layout.findEmpty_ensures fuel h.clean (hheld.symm ▸ hn)
    (c.hasher (s.entries.cell n).key)
  simp only [reindexKey, hread, Exec.ok_bind]
  rw [← h.settings.capacity]
  refine Exec.Ensures.bind hfind ?_
  intro i hfound
  obtain ⟨hi, hfirst⟩ := hfound
  have hi' : i < s.tags.size := hi
  have hr : i < s.realIndex.size := by
    have hsize : s.realIndex.size = s.capacity := h.layout.realIndex_size ht
    rwa [hsize, ← h.layout.size_eq]
  simp only [Block.write_of_lt hi', Block.write_of_lt hr, Exec.ok_bind, Exec.ensures_ok]
  have hplaced : Layout c (placed c { s with count := n } i (s.entries.cell n)) :=
    h.layout.placed hi (by simp [hfirst.empty]) hfirst.reached fun _ => h.entries ▸ hn.trans_le hle
  refine ⟨?_, h.settings.trans ⟨⟨rfl, rfl, rfl, rfl⟩, rfl, rfl⟩,
    h.clean.set (hashToTag_lt _), h.entries, h.count⟩
  simpa [placed, ht] using hplaced

end Dense

/-- The entries of a table and the storage behind it, whatever the size of the
tag array: what a rebuild starts from. -/
structure Stored (c : Template K) (s : Core K V) : Prop where
  geometry : s.Geometry c
  entries_size : c.type ≠ .index → s.entries.size = s.capacity
  realIndex_size : c.type = .index → s.realIndex.size = s.capacity
  index_count : c.type = .index → s.count ≤ s.entries.size
  index_page : c.type = .index → pageSize ∣ s.entries.size
  index_dense : c.type = .index → s.entriesHeld c = (Multiset.range s.count).map s.entries.cell
  tags_le : s.tags.size ≤ s.capacity
  tagged : ∀ i e, s.slots c i = .live e → s.tags.cell i = hashToTag (c.hasher e.key)
  count_eq : s.count = (s.entriesHeld c).card

theorem Stored.held_le (h : s.Stored c) : (s.entriesHeld c).card ≤ s.capacity := by
  have hle : (s.entriesHeld c).card ≤ (Finset.range s.tags.size).card := card_content_le
  rw [Finset.card_range] at hle
  exact hle.trans h.tags_le

structure Rebuilt (c : Template K) (s t : Core K V) : Prop extends Layout c t where
  capacity : t.capacity = s.capacity
  factor : t.maxLoadFactor = s.maxLoadFactor
  limit : t.countGrowthLimit = s.countGrowthLimit
  count : t.count = s.count
  held : t.entriesHeld c = s.entriesHeld c
  clean : t.tags.Clean
  dense : c.type = .index → t.entries = s.entries

theorem init_eq {bDebug : Bool} {tags : TagArray} (h : IsCapacity tags.size) :
    tags.init bDebug = .ok tags.fill := by
  have hmod : tags.size % TagVector.size = 0 := Nat.mod_eq_zero_of_dvd (sixteen_dvd h)
  have hpos : tags.size ≠ 0 :=
    Nat.pos_iff_ne_zero.mp ((show 0 < minSize by decide).trans_le h.min_le)
  rw [TagArray.init, Exec.assert_of _ hmod, Exec.ok_bind, if_neg hpos]

theorem Stored.rehashInternal_eq (h : s.Stored c) (ht : c.type ≠ .index) (fuel : ℕ) :
    rehashInternal c fuel s s.capacity =
      (Exec.forRange s.tags.size (rehashSlot c fuel) (s.tags, emptied s) >>= fun r =>
        Exec.assert c.bDebug (s.count = r.2.count) >>= fun _ => .ok r.2) := by
  set tags : TagArray := { s.tags with size := s.capacity }
  have hcap : IsCapacity tags.size := h.geometry.isCapacity
  have hadjust : s.tags.clear.adjustSize c.bDebug s.capacity = .ok tags := by
    have hpos : s.capacity > s.tags.clear.size := h.geometry.capacity_pos
    rw [TagArray.adjustSize, Exec.assert_of _ hpos]
    rfl
  simp only [rehashInternal, ht, if_false, hadjust, init_eq hcap, Exec.ok_bind]
  rfl

theorem Stored.reindex_eq (h : s.Stored c) (ht : c.type = .index) (fuel : ℕ)
    (hgrow : s.tags.size < s.capacity) : rehashInternal c fuel s s.capacity =
      Exec.forRange s.count (reindexKey c fuel)
        { s with tags := TagArray.fill { s.tags with size := s.capacity } } := by
  set tags : TagArray := { s.tags with size := s.capacity }
  have hcap : IsCapacity tags.size := h.geometry.isCapacity
  have hadjust : s.tags.adjustSize c.bDebug s.capacity = .ok tags := by
    rw [TagArray.adjustSize, Exec.assert_of _ hgrow]
    rfl
  simp only [rehashInternal, ht, if_true, hadjust, init_eq hcap, Exec.ok_bind]

theorem served_stuck : Served c fuel s (Stuck s.capacity fuel (s.entriesHeld c).card) where
  find := by
    intro u hash _ hlayout hclean hcapacity hheld
    rw [← hcapacity]
    exact hlayout.findEmpty_ensures fuel hclean hheld hash
  chain := by
    intro hlt
    refine ⟨rfl, fun hroom => ?_⟩
    have hfuel := hroom.fuel
    have hslots := hroom.slots
    omega

theorem Stored.rebuild_start (h : s.Stored c) (ht : c.type ≠ .index) :
    Rebuild c s 0 0 s.tags (emptied s) := by
  have hslots : s.tags.slots s.entries.cell = s.slots c := by
    rw [slots]
    congr 1
    funext i
    simp [record, ref, ht]
  refine
    { Layout.emptied h.geometry h.entries_size h.realIndex_size h.index_page with
      settings := ⟨⟨rfl, rfl, rfl, rfl⟩, rfl, rfl⟩
      clean := TagArray.fill_clean _
      prev_size := rfl
      prev_le := h.tags_le
      old := ?_
      balance := ?_
      count_eq := ?_
      filled := .start }
  · intro j e hj
    have hlive : s.slots c j = .live e := hslots ▸ hj
    exact ⟨Nat.zero_le j, h.tagged j e hlive, slots_emptied⟩
  · rw [entriesHeld_emptied, zero_add, add_zero, entriesHeld, ← hslots]
    rfl
  · rw [entriesHeld_emptied]
    rfl

theorem Rebuild.entriesHeld_eq {source : Core K V} {prevTags : TagArray}
    (h : Rebuild c source source.tags.size 0 prevTags t) :
    t.entriesHeld c = source.entriesHeld c := by
  have hdone : waiting prevTags t = 0 := by
    refine content_eq_zero fun j hj e hlive => ?_
    have hlt := h.prev_size ▸ Finset.mem_range.mp hj
    exact absurd (h.old j e hlive).1 (not_le.mpr hlt)
  rw [← h.balance, hdone, add_zero, add_zero]

theorem Stored.rebuild_run (h : s.Stored c) (ht : c.type ≠ .index) {E : Fault → Prop}
    (hserved : Served c fuel s E) {n : ℕ} (hn : n ≤ s.tags.size) :
    Exec.Ensures (Exec.forRange n (rehashSlot c fuel) (s.tags, emptied s))
      (fun r => Rebuild c s n 0 r.1 r.2) E := by
  refine Exec.ensures_forRange_prefix
    (I := fun n (r : TagArray × Core K V) => Rebuild c s n 0 r.1 r.2) (h.rebuild_start ht) ?_
  intro i r hi hrun hr
  exact hr.rehashSlot_ensures ht hserved hrun (hi.trans_le hn)

theorem Stored.rebuild_ensures (h : s.Stored c) (ht : c.type ≠ .index) {E : Fault → Prop}
    (hserved : Served c fuel s E) :
    Exec.Ensures (rehashInternal c fuel s s.capacity)
      (fun t => t.count = s.count ∧ ∃ prevTags, Rebuild c s s.tags.size 0 prevTags t) E := by
  rw [h.rehashInternal_eq ht]
  refine Exec.Ensures.bind (h.rebuild_run ht hserved le_rfl) ?_
  intro r hr
  obtain ⟨prevTags, t⟩ := r
  have hcount : t.count = s.count := by
    rw [hr.count_eq, hr.entriesHeld_eq, ← h.count_eq]
  simp only [Exec.assert_of _ hcount.symm, Exec.ok_bind, Exec.ensures_ok]
  exact ⟨hcount, prevTags, hr⟩

theorem Stored.rehashInternal_ensures (h : s.Stored c) (fuel : ℕ)
    (hgrow : c.type = .index → s.tags.size < s.capacity) :
    Exec.Ensures (rehashInternal c fuel s s.capacity) (Rebuilt c s)
      (Stuck s.capacity fuel s.count) := by
  by_cases ht : c.type = .index
  · rw [h.reindex_eq ht fuel (hgrow ht)]
    set tags : TagArray := { s.tags with size := s.capacity }
    have hloop : Exec.Ensures
        (Exec.forRange s.count (reindexKey c fuel) { s with tags := tags.fill })
        (Reindex c { s with tags := tags.fill } s.count)
        (Stuck s.capacity fuel s.count) := Exec.ensures_forRange
      (I := Reindex c { s with tags := tags.fill })
      ⟨Layout.emptied h.geometry h.entries_size h.realIndex_size h.index_page,
        ⟨⟨rfl, rfl, rfl, rfl⟩, rfl, rfl⟩, TagArray.fill_clean tags, rfl, rfl⟩
      fun n u hn hu => hu.reindexKey_ensures ht hn (h.index_count ht)
    refine hloop.mono fun t hr => ?_
    have hlayout : t.Layout c := by
      have hl := hr.layout
      rwa [show { t with count := s.count } = t by rw [← hr.count]] at hl
    exact
      { hlayout with
        capacity := hr.settings.capacity
        factor := hr.settings.factor
        limit := hr.settings.limit
        count := hr.count
        held := by rw [hlayout.entriesHeld_index ht, h.index_dense ht, hr.entries, hr.count]
        clean := hr.clean
        dense := fun _ => hr.entries }
  · rw [h.count_eq]
    refine (h.rebuild_ensures ht served_stuck).mono fun t hr => ?_
    obtain ⟨hcount, prevTags, hr⟩ := hr
    exact
      { hr.toLayout with
        capacity := hr.settings.capacity
        factor := hr.settings.factor
        limit := hr.settings.limit
        count := hcount
        held := hr.entriesHeld_eq
        clean := hr.clean
        dense := fun hx => absurd hx ht }

end Core

end SimdHash
