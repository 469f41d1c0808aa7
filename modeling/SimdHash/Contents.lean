import SimdHash.Calls

/-! What the live slots of a `Map` or `Set` hold in every reachable state, and
what a call does to them. -/

namespace SimdHash

open OpenAddressing TagVector Transition

/-- What a call may do to the entries of a `Map`, given what it returned. -/
def Op.Touches {K V : Type} {t : ContainerType} :
    Op K V t → Result V → Multiset (Entry K V) → Multiset (Entry K V) → Prop
  | .add _ key value, .bool true, before, after => after = ⟨key, value⟩ ::ₘ before
  | .addOrUpdate key value _, .bool true, before, after => after = ⟨key, value⟩ ::ₘ before
  | .addOrUpdate key value _, .bool false, before, after =>
    ∃ rest old, before = ⟨key, old⟩ ::ₘ rest ∧ after = ⟨key, value⟩ ::ₘ rest
  | .remove key _, .bool true, before, after => ∃ old, before = ⟨key, old⟩ ::ₘ after
  | .clear _, .void, _, after => after = 0
  | _, _, before, after => after = before

namespace Core

variable {K V : Type} {c : Template K} {s t : Core K V}

/-- The entries in the slots below `_Capacity` whose tag is below 0x80. -/
def liveEntries (s : Core K V) : Multiset (Entry K V) :=
  ((Finset.range s.capacity).filter fun i => s.tags.cell i < 0x80).val.map s.entries.cell

theorem Table.slots_live (h : s.Table c) (ht : c.type ≠ .index) {i : ℕ} {e : Entry K V} :
    s.slots c i = .live e ↔ i < s.capacity ∧ s.tags.cell i < 0x80 ∧ s.entries.cell i = e := by
  rw [slots_eq_live, h.size_eq, record, ref, if_neg ht]

theorem Table.entriesHeld_eq (h : s.Table c) (ht : c.type ≠ .index) :
    s.entriesHeld c = s.liveEntries := by
  have hheld (i : ℕ) (hi : i ∈ Finset.range s.capacity) : (s.slots c i).held =
      if s.tags.cell i < 0x80 then {s.entries.cell i} else 0 := by
    have hi' := Finset.mem_range.mp hi
    split_ifs with htag
    · rw [(h.slots_live ht).mpr ⟨hi', htag, rfl⟩, held_live]
    · exact held_eq_zero fun e hlive => htag ((h.slots_live ht).mp hlive).2.1
  have hsum := Multiset.sum_map_singleton s.liveEntries
  rw [liveEntries, Multiset.map_map] at hsum
  rw [entriesHeld, content, h.size_eq, Finset.sum_congr rfl hheld, ← Finset.sum_filter]
  exact hsum

theorem Outcome.touches {op : Op K V c.type} {r : Result V} (hmap : c.type = .map)
    (ho : Outcome c s op r t) : op.Touches r (s.entriesHeld c) (t.entriesHeld c) := by
  have hnot : c.type ≠ .index := by simp [hmap]
  have hinserted {i : ℕ} {key : K} {value : V} (hr : Inserted c s i key value t) :
      t.entriesHeld c = ⟨key, value⟩ ::ₘ s.entriesHeld c := by
    obtain ⟨e, rfl, hvalue, hheld⟩ := hr.held
    rw [hheld, ← hvalue hmap]
  cases ho with
  | add hr =>
    cases hr with
    | inserted hslot ht => exact hinserted ht
    | found hchecked hslot hlive hkey => simp [Op.Touches]
  | addOrUpdate hr =>
    cases hr with
    | inserted hslot ht => exact hinserted ht
    | @found i e hchecked hslot hlive hkey =>
      obtain ⟨rest, hold, hnew⟩ := entriesHeld_revalued hnot { e with value := _ } hlive
      refine ⟨rest, e.value, ?_, ?_⟩
      · rw [hold, ← hkey]
      · simp only [hmap, and_self, if_true]
        rw [hnew, ← hkey]
  | @tryAdd _ _ offered => exact absurd offered hnot
  | remove hr =>
    cases hr with
    | @removed i e hmet hlive hkey => exact ⟨e.value, by rw [entriesHeld_buried hlive, ← hkey]⟩
    | absent hunmet => rfl
  | contains hr => rfl
  | foundValue hmet hlive hkey => rfl
  | noValue hunmet => rfl
  | tryGetIndex hr => rfl
  | resize hr => exact hr.held
  | rehash hr => exact hr.held
  | clear hinv hcount hclean hfactor hcap => exact hinv.count_eq_zero hcount
  | setMaxLoadFactor => rfl

section Claims

variable [DecidableEq K]

/-- In every reachable state of a `Map` or `Set` the count is that of the live
slots, each live slot is tagged for its key and reached by the key's probe
before any empty slot, and a lookup that returns has the right answer. -/
theorem stored_keys_found (hnot : c.type ≠ .index) (hfix : c.bFix = false) (hs : Reachable c s) :
    s.count = ((Finset.range s.capacity).filter fun i => s.tags.cell i < 0x80).card ∧
    (∀ i < s.capacity, s.tags.cell i < 0x80 →
      s.tags.cell i = hashToTag (c.hasher (s.entries.cell i).key) ∧
      ∃ n, i ∈ s.windows c (c.hasher (s.entries.cell i).key) n ∧
        ∀ m < n, ∀ j ∈ s.windows c (c.hasher (s.entries.cell i).key) m,
          s.tags.cell j ≠ TagVector.empty) ∧
    ∀ key fuel r, s.findEntry c fuel key = .ok r →
      (r.isSome ↔ ∃ i < s.capacity, s.tags.cell i < 0x80 ∧ (s.entries.cell i).key = key) := by
  have h := hs.inv
  have hlive {i : ℕ} {e : Entry K V} := h.slots_live (i := i) (e := e) hnot
  refine ⟨?_, ?_, ?_⟩
  · rw [h.count_eq, h.entriesHeld_eq hnot, liveEntries, Multiset.card_map]
    rfl
  · intro i hi htag
    have hslot := hlive.mpr ⟨hi, htag, rfl⟩
    obtain ⟨n, hmem, hbefore⟩ := h.chained i _ hslot
    refine ⟨h.tagged i _ hslot, n, hmem, fun m hm j hj hempty => hbefore m hm ⟨j, hj, ?_⟩⟩
    exact TagArray.slots_eq_empty.mpr ⟨hj.2.2, hempty⟩
  · intro key fuel r hrun
    rcases h.findEntry_value hfix hrun with ⟨i, e, hslot, hkey, rfl⟩ | ⟨rfl, habsent⟩
    · obtain ⟨hi, htag, hcell⟩ := hlive.mp hslot
      exact iff_of_true rfl ⟨i, hi, htag, by rw [hcell, hkey]⟩
    · refine iff_of_false (by simp) ?_
      intro hstored
      obtain ⟨i, hi, htag, hkey⟩ := hstored
      exact habsent i _ (hlive.mpr ⟨hi, htag, rfl⟩) hkey

theorem stored_keys_found_constantHash : ∃ s : Core ℕ ℕ,
    Reachable (constantHash .map .fast false) s ∧
    ∀ fuel r, s.findEntry (constantHash .map .fast false) fuel 1 = .ok r →
      (r.isSome ↔ ∃ i < s.capacity, s.tags.cell i < 0x80 ∧ (s.entries.cell i).key = 1) := by
  have hruns : observe (constantHash .map .fast false) 100 zeroedMemory
      [.add false 1 10, .addOrUpdate 2 20, .remove 1, .add true 3 30] =
      .ok [(.bool true, 1), (.bool true, 2), (.bool true, 1), (.bool true, 2)] := by
    decide +kernel
  obtain ⟨s, hs⟩ := reachable_of_observe hruns
  exact ⟨s, hs, (stored_keys_found (by decide) rfl hs).2.2 1⟩

/-- Every call on a reachable `Map` touches at most one entry. -/
theorem map_call_touches (hmap : c.type = .map) (hs : Reachable c s) {op : Op K V c.type}
    {out : Result V × ℕ} (hcall : Call c s op out t) :
    op.Touches out.1 s.liveEntries t.liveEntries := by
  have hnot : c.type ≠ .index := by simp [hmap]
  have h := hs.inv
  rw [← h.entriesHeld_eq hnot, ← (hcall.inv h).entriesHeld_eq hnot]
  exact (hcall.outcome h).1.touches hmap

theorem map_call_touches_constantHash : ∃ s t : Core ℕ ℕ,
    Reachable (constantHash .map .fast false) s ∧ s.count = 2 ∧
    t.liveEntries = ⟨3, 30⟩ ::ₘ s.liveEntries := by
  have hruns : (after (constantHash .map .fast false) 100 zeroedMemory
      [.add false 1 10, .addOrUpdate 2 20, .add true 4 40, .remove 1] >>= fun s =>
        step (constantHash .map .fast false) 100 s (.add false 3 30) >>= fun r =>
          .ok (s.count, r.1)) = .ok (2, .bool true) := by
    decide +kernel
  obtain ⟨s, hafter, hruns⟩ := Exec.bind_eq_ok.mp hruns
  obtain ⟨⟨ret, t⟩, hstep, hruns⟩ := Exec.bind_eq_ok.mp hruns
  simp only [Except.ok.injEq, Prod.mk.injEq] at hruns
  obtain ⟨hcount, rfl⟩ := hruns
  have hs : Reachable (constantHash .map .fast false) s := reachable_of_after hafter
  have hcall : Call (constantHash .map .fast false) s (.add false 3 30) (.bool true, t.count) t :=
    ⟨100, hstep, rfl⟩
  exact ⟨s, t, hs, hcount, map_call_touches rfl hs hcall⟩

end Claims

end Core

end SimdHash
