import SimdHash.Calls

/-! The rebuild of a `Map` or `Set` is a permutation of its entries as soon as
its calls of `FindEmpty` return, whatever the shape of the new table. -/

namespace SimdHash

open OpenAddressing TagVector

namespace Core

variable {K V : Type} {c : Template K} {s u : Core K V} {fuel : ℕ} {hash : UInt64}

/-- A search that returns at all returns within as many windows as there are slots. -/
theorem Layout.findEmpty_returns (h : s.Layout c) (hfuel : s.capacity ≤ fuel) {fuel' j : ℕ}
    (hret : s.findEmpty c fuel' hash = .ok j) :
    Exec.Ensures (s.findEmpty c fuel hash)
      (fun i => i < s.tags.size ∧ FirstEmpty (s.slots c) (s.windows c hash) i)
      (fun _ => False) := by
  refine (h.toTable.findEmpty_ensures hash).imp ?_ ?_
  · intro i hi
    obtain ⟨n, hbefore, hmem, hempty⟩ := hi
    exact ⟨hmem.2.2, n, hmem, hempty, hbefore⟩
  · intro e he
    obtain ⟨-, hall⟩ := he
    obtain ⟨n, -, hmem, hempty⟩ := (h.toTable.findEmpty_ensures hash).value hret
    have hlt : n % s.capacity < s.capacity := Nat.mod_lt _ h.geometry.capacity_pos
    refine hall (n % s.capacity) (hlt.trans_le hfuel) ?_
    rw [(h.geometry.windows_periodic hash).map_mod_nat]
    exact ⟨j, hmem, hempty⟩

/-- Where every search returns, with whatever fuel, nothing in a rebuild fails. -/
theorem Stored.served (h : s.Stored c) (hfuel : s.capacity ≤ fuel)
    (hfind : ∀ u hash, Searches c fuel s u hash → ∃ fuel' i, u.findEmpty c fuel' hash = .ok i) :
    Served c fuel s (fun _ => False) where
  find := by
    intro u hash hsearch hlayout _ hcapacity _
    obtain ⟨fuel', i, hret⟩ := hfind u hash hsearch
    exact hlayout.findEmpty_returns (hcapacity ▸ hfuel) hret
  chain := by
    intro hlt
    have hle := h.held_le
    omega

section Searched

/-- The tables that a rebuild of `s` searches. -/
structure Searched (c : Template K) (s u : Core K V) : Prop extends Layout c u where
  clean : u.tags.Clean
  capacity : u.capacity = s.capacity
  held_lt : (u.entriesHeld c).card < (s.entriesHeld c).card

variable {n i : ℕ} {e : Entry K V} {prevTags : TagArray}

theorem Searched.find_ensures (h : Searched c s u) (fuel : ℕ) (hash : UInt64) :
    Exec.Ensures (u.findEmpty c fuel hash)
      (fun i => i < u.tags.size ∧ FirstEmpty (u.slots c) (u.windows c hash) i)
      (Stuck s.capacity fuel (s.entriesHeld c).card) := by
  rw [← h.capacity]
  exact h.toLayout.findEmpty_ensures fuel h.clean h.held_lt hash

theorem Chain.searched (hnot : c.type ≠ .index) (h : Chain c s n e i prevTags u) :
    Searched c s (placed c u i e) := by
  obtain ⟨_, -, -, hput, hheld⟩ := h.swap hnot
  exact ⟨hput.toLayout, hput.clean, hput.settings.capacity, hheld⟩

theorem Chain.rounds (hnot : c.type ≠ .index) (h : Chain c s n e i prevTags u)
    {st : TagArray × Core K V × UInt8 × Entry K V × ℕ}
    (hrounds : Exec.Rounds (displaceRound c fuel)
      (prevTags, u, hashToTag (c.hasher e.key), e, i) st) :
    ∃ prevTags' t e' j, st = (prevTags', t, hashToTag (c.hasher e'.key), e', j) ∧
      Chain c s n e' j prevTags' t := by
  induction hrounds with
  | refl => exact ⟨prevTags, u, e, i, rfl, h⟩
  | tail _ hround ih =>
    obtain ⟨prevTags', t, e', j, rfl, hchain⟩ := ih
    have hnext := (hchain.round_ensures hnot fun saved _ =>
      (hchain.searched hnot).find_ensures fuel (c.hasher saved.key)).value hround
    obtain ⟨prevTags'', t', e'', j', rfl, hchain', -⟩ := hnext
    exact ⟨prevTags'', t', e'', j', rfl, hchain'⟩

theorem Stored.searched (h : s.Stored c) (hnot : c.type ≠ .index)
    (hsearch : Searches c fuel s u hash) : Searched c s u := by
  have hturn {i : ℕ} {prevTags : TagArray} {u : Core K V} (hturn : Turn c fuel s i prevTags u) :
      Rebuild c s i 0 prevTags u :=
    (h.rebuild_run hnot served_stuck hturn.lt.le).value hturn.run
  cases hsearch with
  | slot turn =>
    have hrebuild := hturn turn
    obtain ⟨-, htake, -⟩ := hrebuild.turn turn.lt turn.waits
    exact ⟨hrebuild.toLayout, hrebuild.clean, hrebuild.settings.capacity, htake.held_lt⟩
  | chain turn hfind hne hvac hrounds hplace =>
    rename_i i j k prevTags prevTags' u v tag entry
    have hrebuild := hturn turn
    obtain ⟨htag, htake, -⟩ := hrebuild.turn turn.lt turn.waits
    have hfirst : Searched c s u :=
      ⟨hrebuild.toLayout, hrebuild.clean, hrebuild.settings.capacity, htake.held_lt⟩
    have hfound := hfirst.find_ensures fuel (c.hasher (u.entries.cell i).key)
    obtain ⟨hj, hfirst⟩ := hfound.value hfind
    obtain ⟨b, hb, hbiff⟩ := vacated_eq (prevTags.set i TagVector.empty) u.entries.cell j
    rw [hb, Except.ok.injEq] at hvac
    have hwait := hbiff.not.mp (ne_true_of_eq_false hvac)
    push Not at hwait
    have hchain : Chain c s (i + 1) (u.entries.cell i) j (prevTags.set i TagVector.empty) u :=
      ⟨htake, hj, hfirst, hwait⟩
    rw [htag] at hrounds
    obtain ⟨prevTags'', t, e', j', heq, hend⟩ := hchain.rounds hnot hrounds
    obtain ⟨rfl, rfl, rfl, rfl, rfl⟩ := heq
    rw [hend.place_eq hnot hend.slot_lt, Except.ok.injEq] at hplace
    subst hplace
    exact hend.searched hnot

theorem Stored.searches_return (h : s.Stored c) (hnot : c.type ≠ .index)
    (hroom : Roomy s.capacity fuel s.count) (hsearch : Searches c fuel s u hash) :
    ∃ i, u.findEmpty c fuel hash = .ok i := by
  have hfind := (h.searched hnot hsearch).find_ensures fuel hash
  rw [← h.count_eq] at hfind
  obtain ⟨i, hi, -⟩ := hfind.returns fun e he => he.2 hroom
  exact ⟨i, hi⟩

end Searched

/-- `RehashInternal` on a table of the old size or of a larger one, which `s`
has the storage for. -/
theorem rebuild_permutes (hnot : c.type ≠ .index) (h : s.Stored c) (hfuel : s.capacity ≤ fuel)
    (hfind : ∀ u hash, Searches c fuel s u hash → ∃ fuel' i, u.findEmpty c fuel' hash = .ok i) :
    ∃ t, rehashInternal c fuel s s.capacity = .ok t ∧ t.count = s.count ∧
      t.tags.size = s.capacity ∧ t.entriesHeld c = s.entriesHeld c ∧
      (∀ i e, t.slots c i = .live e → t.tags.cell i = hashToTag (c.hasher e.key)) ∧
      Filled (fun e => t.windows c (c.hasher e.key)) ((emptied s).slots c) (t.slots c) ∧
      t.tags.Clean := by
  obtain ⟨t, hrun, hcount, prevTags, hr⟩ :=
    (h.rebuild_ensures hnot (h.served hfuel hfind)).returns fun _ he => he
  refine ⟨t, hrun, hcount, hr.settings.size, hr.entriesHeld_eq, hr.tagged, ?_, hr.clean⟩
  rw [hr.settings.windows_eq]
  exact hr.filled

theorem rebuild_permutes_constantHash : ∃ s t : Core ℕ ℕ,
    Reachable (constantHash .map .fast false) s ∧ s.count = 1 ∧ s.tags.cell 0 = tombstone ∧
    rehashInternal (constantHash .map .fast false) 4096 s s.capacity = .ok t ∧
    t.entriesHeld (constantHash .map .fast false) =
      s.entriesHeld (constantHash .map .fast false) ∧ t.tags.Clean := by
  have hruns : ((after (constantHash .map .fast false) 100 zeroedMemory
      [.add false 1 10, .add false 2 20, .remove 1]) >>=
      fun s => .ok (s.count, s.capacity, s.tags.cell 0)) = .ok (1, 4096, tombstone) := by
    decide +kernel
  obtain ⟨s, hafter, hs⟩ := Exec.bind_eq_ok.mp hruns
  have hreach : Reachable (constantHash .map .fast false) s := reachable_of_after hafter
  simp only [Except.ok.injEq, Prod.mk.injEq] at hs
  obtain ⟨hcount, hcap, htag⟩ := hs
  have hstored := hreach.inv.stored
  have hroom : Roomy s.capacity 4096 s.count :=
    ⟨by rw [hcap]; decide, hcap.le, by rw [hcount, hcap]; decide⟩
  obtain ⟨t, hrebuild, -, -, hheld, -, -, hclean⟩ :=
    rebuild_permutes (by decide) hstored hcap.le fun u hash hsearch =>
      ⟨4096, hstored.searches_return (by decide) hroom hsearch⟩
  exact ⟨s, t, hreach, hcount, htag, hrebuild, hheld, hclean⟩

end Core

end SimdHash
