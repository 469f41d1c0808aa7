import SimdHash.Contents

/-! The finite map that a `Map` or `Set` stands for, and the calls after which
it no longer does: insertions of a key that is stored already and not met on
the way to the slot that is filled. -/

namespace SimdHash

open OpenAddressing Transition

/-- A `Set` is a finite map of which only the keys are looked at. -/
abbrev Dictionary (K V : Type) := Finmap fun _ : K => V

namespace Dictionary

variable {K V : Type} [DecidableEq K] {t : ContainerType}

/-- What a call returns and leaves. The last two calls are not offered here. -/
def call (m : Dictionary K V) : Op K V t → Result V × Dictionary K V
  | .add _ key value => if key ∈ m then (.bool false, m) else (.bool true, m.insert key value)
  | .addOrUpdate key value _ => (.bool (key ∉ m), m.insert key value)
  | .remove key _ => (.bool (key ∈ m), m.erase key)
  | .contains key => (.bool (key ∈ m), m)
  | .tryGetValue key _ => (.value (m.lookup key), m)
  | .resize _ => (.void, m)
  | .rehash _ => (.void, m)
  | .clear _ => (.void, ∅)
  | .setMaxLoadFactor _ => (.void, m)
  | .tryAdd _ _ _ => (.void, m)
  | .tryGetIndex _ _ => (.void, m)

/-- The same with the number of keys that are then present. -/
def spec (m : Dictionary K V) (op : Op K V t) : (Result V × ℕ) × Dictionary K V :=
  (((m.call op).1, (m.call op).2.keys.card), (m.call op).2)

theorem keys_insert_of_notMem {m : Dictionary K V} {key : K} (h : key ∉ m) (value : V) :
    (m.insert key value).keys.val = key ::ₘ m.keys.val := by
  have hkeys : (m.insert key value).keys = insert key m.keys := by
    ext k
    simp [Finmap.mem_keys, Finmap.mem_insert]
  rw [hkeys, Finset.insert_val_of_notMem (by simpa [Finmap.mem_keys] using h)]

theorem keys_insert_of_mem {m : Dictionary K V} {key : K} (h : key ∈ m) (value : V) :
    (m.insert key value).keys = m.keys := by
  ext k
  simp only [Finmap.mem_keys, Finmap.mem_insert, or_iff_right_iff_imp]
  rintro rfl
  exact h

theorem erase_of_notMem {m : Dictionary K V} {key : K} (h : key ∉ m) : m.erase key = m := by
  refine Finmap.ext_lookup fun k => ?_
  by_cases hk : k = key
  · rw [hk, Finmap.lookup_erase, Finmap.lookup_eq_none.mpr h]
  · rw [Finmap.lookup_erase_ne hk]

end Dictionary

namespace Core

variable {K V : Type} {c : Template K} {s t : Core K V}

section Represents

variable [DecidableEq K] {m : Dictionary K V} {key : K} {value : V}

/-- The entries of `s` are those of the finite map. -/
structure Represents (c : Template K) (s : Core K V) (m : Dictionary K V) : Prop
    extends Inv c s where
  keys : (s.entriesHeld c).map Entry.key = m.keys.val
  values : c.type = .map → ∀ e ∈ s.entriesHeld c, m.lookup e.key = some e.value

theorem Represents.count_eq_card (h : s.Represents c m) : s.count = m.keys.card := by
  rw [h.count_eq, ← Multiset.card_map Entry.key, h.keys]
  rfl

theorem Represents.mem_iff (h : s.Represents c m) :
    key ∈ m ↔ ∃ i e, s.slots c i = .live e ∧ e.key = key := by
  rw [← Finmap.mem_keys, ← Finset.mem_val, ← h.keys, Multiset.mem_map]
  exact exists_entriesHeld

theorem Represents.congr (h : s.Represents c m) (ht : t.Inv c)
    (hheld : t.entriesHeld c = s.entriesHeld c) : t.Represents c m :=
  { ht with
    keys := hheld ▸ h.keys
    values := hheld ▸ h.values }

theorem Represents.insert (h : s.Represents c m) (hnew : key ∉ m) {i : ℕ}
    (ht : Inserted c s i key value t) : t.Represents c (m.insert key value) := by
  obtain ⟨e, hkey, hvalue, hheld⟩ := ht.held
  refine { ht.toInv with keys := ?_, values := ?_ }
  · rw [hheld, Multiset.map_cons, h.keys, hkey, Dictionary.keys_insert_of_notMem hnew]
  · intro hmap e' he'
    rw [hheld, Multiset.mem_cons] at he'
    rcases he' with rfl | he'
    · rw [hkey, Finmap.lookup_insert, hvalue hmap]
    · have hne : e'.key ≠ key := by
        intro heq
        obtain ⟨i, hlive⟩ := mem_entriesHeld.mp he'
        exact hnew (h.mem_iff.mpr ⟨i, e', hlive, heq⟩)
      rw [Finmap.lookup_insert_of_ne _ hne]
      exact h.values hmap e' he'

theorem Represents.key_unique (h : s.Represents c m) {i j : ℕ} {e e' : Entry K V}
    (hi : s.slots c i = .live e) (hj : s.slots c j = .live e') (hkey : e.key = e'.key) : i = j :=
  slot_unique (h.keys ▸ m.keys.nodup) (Finset.mem_range.mpr (slots_lt_size hi))
    (Finset.mem_range.mpr (slots_lt_size hj)) hi hj hkey

theorem Represents.update (h : s.Represents c m) (hnot : c.type ≠ .index) {i : ℕ} {e : Entry K V}
    (hlive : s.slots c i = .live e) (hkey : e.key = key) :
    Represents c (if c.type = .map then s.revalued i { e with value } else s)
      (m.insert key value) := by
  have hmem : key ∈ m := h.mem_iff.mpr ⟨i, e, hlive, hkey⟩
  obtain ⟨rest, hold, hnew⟩ := entriesHeld_revalued hnot { e with value } hlive
  have hkeys := h.keys
  rw [hold, Multiset.map_cons] at hkeys
  by_cases hmap : c.type = .map
  · rw [if_pos hmap]
    have hinv : Inv c (s.revalued i { e with value }) := h.toInv.revalued hnot hlive rfl
    refine { hinv with keys := ?_, values := ?_ }
    · rw [hnew, Multiset.map_cons, Dictionary.keys_insert_of_mem hmem]
      exact hkeys
    · intro _ e' he'
      rw [hnew, Multiset.mem_cons] at he'
      rcases he' with rfl | he'
      · rw [hkey, Finmap.lookup_insert]
      · have hne : e'.key ≠ key := by
          intro heq
          have hnodup : (e.key ::ₘ rest.map Entry.key).Nodup := hkeys ▸ m.keys.nodup
          refine (Multiset.nodup_cons.mp hnodup).1 ?_
          rw [hkey, ← heq]
          exact Multiset.mem_map_of_mem _ he'
        rw [Finmap.lookup_insert_of_ne _ hne]
        exact h.values hmap e' (hold ▸ Multiset.mem_cons_of_mem he')
  · rw [if_neg hmap]
    exact
      { h.toInv with
        keys := by rw [Dictionary.keys_insert_of_mem hmem, h.keys]
        values := fun hx => absurd hx hmap }

theorem Represents.remove (h : s.Represents c m) (hnot : c.type ≠ .index) {i : ℕ} {e : Entry K V}
    (hlive : s.slots c i = .live e) (hkey : e.key = key) :
    Represents c (buried s i) (m.erase key) := by
  have hheld := entriesHeld_buried hlive
  have hkeys := h.keys
  rw [hheld, Multiset.map_cons, hkey] at hkeys
  have herase : (m.erase key).keys.val = ((buried s i).entriesHeld c).map Entry.key := by
    rw [Finmap.keys_erase, Finset.erase_val, ← hkeys, Multiset.erase_cons_head]
  refine { h.toInv.buried hnot hlive with keys := herase.symm, values := ?_ }
  intro hmap e' he'
  have hne : e'.key ≠ key := by
    intro heq
    have hnodup : (key ::ₘ ((buried s i).entriesHeld c).map Entry.key).Nodup :=
      hkeys ▸ m.keys.nodup
    refine (Multiset.nodup_cons.mp hnodup).1 ?_
    rw [← heq]
    exact Multiset.mem_map_of_mem _ he'
  rw [Finmap.lookup_erase_ne hne]
  exact h.values hmap e' (hheld ▸ Multiset.mem_cons_of_mem he')

end Represents

section Shadows

def HasKey (c : Template K) (s : Core K V) (key : K) : Prop :=
  ∃ i e, s.slots c i = .live e ∧ e.key = key

/-- A stored key whose probe comes to a removed slot in a window before those
that show the key. -/
def Shadowed (c : Template K) (s : Core K V) (key : K) : Prop :=
  HasKey c s key ∧ ∃ n, HasFree (s.slots c) (s.windows c (c.hasher key) n) ∧
    ∀ m ≤ n, ¬ s.Seen c key m

/-- The insertions that do not notice a stored key. -/
def Misled (c : Template K) (s : Core K V) : Op K V c.type → Prop
  | .add true key _ => HasKey c s key
  | .add false key _ => Shadowed c s key
  | .addOrUpdate key _ _ => Shadowed c s key
  | .tryAdd key _ _ => Shadowed c s key
  | _ => False

/-- The calls that do not notice a stored key. -/
def Astray (c : Template K) (s : Core K V) : Op K V c.type → Prop
  | .remove key _ => HasKey c s key ∧ Unmet c s key
  | .contains key => HasKey c s key ∧ Unmet c s key
  | .tryGetValue key _ => HasKey c s key ∧ Unmet c s key
  | .tryGetIndex key _ => HasKey c s key ∧ Unmet c s key
  | op => Misled c s op

theorem Layout.met_or_absent (h : s.Layout c) (hfix : c.bFix = false) (key : K) :
    ¬ (HasKey c s key ∧ Unmet c s key) := by
  intro hk
  obtain ⟨⟨i, e, hlive, hkey⟩, hunmet⟩ := hk
  exact h.absent_of_unmet hfix hunmet hlive hkey

/-- Without the broken cascade only insertions go astray. -/
theorem Layout.astray_iff (h : s.Layout c) (hfix : c.bFix = false) {op : Op K V c.type} :
    Astray c s op ↔ Misled c s op := by
  cases op with
  | remove key offered => exact iff_of_false (h.met_or_absent hfix key) id
  | contains key => exact iff_of_false (h.met_or_absent hfix key) id
  | tryGetValue key offered => exact iff_of_false (h.met_or_absent hfix key) id
  | tryGetIndex key offered => exact iff_of_false (h.met_or_absent hfix key) id
  | _ => exact Iff.rfl

theorem FoundSlot.not_shadowed {key : K} {i : ℕ} (h : s.FoundSlot c key i) :
    ¬ Shadowed c s key := by
  intro hs
  obtain ⟨n, hbefore, hseen, -⟩ := h
  obtain ⟨-, n', hfree, hmiss⟩ := hs
  by_cases hlt : n' < n
  · exact hbefore n' hlt hfree
  · exact hmiss n (by omega) hseen

theorem FreeSlot.misled_add {bUnique : Bool} {key : K} (value : V) {i : ℕ}
    (h : s.FreeSlot c bUnique key i) (hkey : HasKey c s key) :
    Misled c s (.add bUnique key value) := by
  cases bUnique with
  | true => exact hkey
  | false =>
    obtain ⟨n, -, hmem, hfree, -, hmiss⟩ := h
    exact ⟨hkey, n, ⟨i, hmem, hfree⟩, hmiss rfl⟩

theorem Misled.hasKey {bUnique : Bool} {key : K} {value : V}
    (h : Misled c s (.add bUnique key value)) : HasKey c s key := by
  cases bUnique with
  | true => exact h
  | false => exact h.1

variable [DecidableEq K] {m : Dictionary K V} {op : Op K V c.type}

/-- What a step of the finite map is compared with, without the counts. -/
theorem Represents.agree (ht : t.Represents c (m.call op).2) {r : Result V}
    (hr : (m.call op).1 = r) {ok : Prop} (hok : ok) :
    Follows (Represents c) ok (m.spec op) (r, t.count) t :=
  .agree (by rw [Dictionary.spec, hr, ht.count_eq_card]) ht hok

theorem Represents.differ {r : Result V} (hr : (m.call op).1 ≠ r) {ok : Prop} (hbad : ¬ ok) :
    Follows (Represents c) ok (m.spec op) (r, t.count) t :=
  .differ (fun heq => hr (congrArg Prod.fst heq)) hbad

variable {key : K} {value : V} {bUnique b : Bool} {index : ℕ}

theorem Represents.add_follows (h : s.Represents c m)
    (hr : Added c s bUnique false key value ((b, index), t)) :
    Follows (Represents c) (¬ Astray c s (.add bUnique key value))
      (m.spec (.add bUnique key value : Op K V c.type)) (.bool b, t.count) t := by
  cases hr with
  | inserted hslot ht =>
    by_cases hk : key ∈ m
    · refine Represents.differ (by simp [Dictionary.call, hk]) (not_not.mpr ?_)
      exact hslot.misled_add value (h.mem_iff.mp hk)
    · refine Represents.agree ?_ (by simp [Dictionary.call, hk]) ?_
      · simpa [Dictionary.call, hk] using h.insert hk ht
      · exact fun hbad => hk (h.mem_iff.mpr (Misled.hasKey hbad))
  | found hchecked hslot hlive hkey =>
    have hk : key ∈ m := h.mem_iff.mpr ⟨_, _, hlive, hkey⟩
    obtain rfl := hchecked
    refine Represents.agree ?_ (by simp [Dictionary.call, hk]) hslot.not_shadowed
    simpa [Dictionary.call, hk] using h

theorem Represents.addOrUpdate_follows (h : s.Represents c m) (hnot : c.type ≠ .index)
    {offered : c.type = .map} (hr : Added c s false true key value ((b, index), t)) :
    Follows (Represents c) (¬ Astray c s (.addOrUpdate key value offered))
      (m.spec (.addOrUpdate key value offered)) (.bool b, t.count) t := by
  cases hr with
  | inserted hslot ht =>
    by_cases hk : key ∈ m
    · refine Represents.differ (by simp [Dictionary.call, hk]) (not_not.mpr ?_)
      exact hslot.misled_add value (h.mem_iff.mp hk)
    · refine Represents.agree (h.insert hk ht) (by simp [Dictionary.call, hk]) ?_
      exact fun hbad => hk (h.mem_iff.mpr hbad.1)
  | found hchecked hslot hlive hkey =>
    have hk : key ∈ m := h.mem_iff.mpr ⟨_, _, hlive, hkey⟩
    refine Represents.agree ?_ (by simp [Dictionary.call, hk]) hslot.not_shadowed
    simpa [Dictionary.call] using h.update hnot hlive hkey

theorem Represents.remove_follows (h : s.Represents c m) {offered : c.type ≠ .index}
    (hr : Removed c s key (b, t)) :
    Follows (Represents c) (¬ Astray c s (.remove key offered)) (m.spec (.remove key offered))
      (.bool b, t.count) t := by
  cases hr with
  | removed hmet hlive hkey =>
    have hk : key ∈ m := h.mem_iff.mpr ⟨_, _, hlive, hkey⟩
    refine Represents.agree (h.remove offered hlive hkey) (by simp [Dictionary.call, hk]) ?_
    exact fun hbad => hmet.not_unmet hbad.2
  | absent hunmet =>
    by_cases hk : key ∈ m
    · exact Represents.differ (by simp [Dictionary.call, hk]) (not_not.mpr ⟨h.mem_iff.mp hk, hunmet⟩)
    · refine Represents.agree ?_ (by simp [Dictionary.call, hk]) fun hbad => hk (h.mem_iff.mpr hbad.1)
      rwa [Dictionary.call, Dictionary.erase_of_notMem hk]

theorem Represents.contains_follows (h : s.Represents c m) {r : Option ℕ} (hr : Looked c s key r) :
    Follows (Represents c) (¬ Astray c s (.contains key))
      (m.spec (.contains key : Op K V c.type)) (.bool r.isSome, s.count) s := by
  cases hr with
  | found hmet hlive hkey =>
    have hk : key ∈ m := h.mem_iff.mpr ⟨_, _, hlive, hkey⟩
    exact Represents.agree h (by simp [Dictionary.call, hk]) fun hbad => hmet.not_unmet hbad.2
  | absent hunmet =>
    by_cases hk : key ∈ m
    · exact Represents.differ (by simp [Dictionary.call, hk]) (not_not.mpr ⟨h.mem_iff.mp hk, hunmet⟩)
    · exact Represents.agree h (by simp [Dictionary.call, hk]) fun hbad => hk (h.mem_iff.mpr hbad.1)

theorem Represents.foundValue_follows (h : s.Represents c m) {offered : c.type = .map} {i : ℕ}
    {e : Entry K V} (hmet : Met c s key) (hlive : s.slots c i = .live e) (hkey : e.key = key) :
    Follows (Represents c) (¬ Astray c s (.tryGetValue key offered))
      (m.spec (.tryGetValue key offered)) (.value (some e.value), s.count) s := by
  have hvalue := h.values offered e (mem_entriesHeld.mpr ⟨i, hlive⟩)
  rw [hkey] at hvalue
  exact Represents.agree h (by simp [Dictionary.call, hvalue]) fun hbad => hmet.not_unmet hbad.2

theorem Represents.noValue_follows (h : s.Represents c m) {offered : c.type = .map}
    (hunmet : Unmet c s key) :
    Follows (Represents c) (¬ Astray c s (.tryGetValue key offered))
      (m.spec (.tryGetValue key offered)) (.value none, s.count) s := by
  by_cases hk : key ∈ m
  · obtain ⟨value, hvalue⟩ := Finmap.mem_iff.mp hk
    exact Represents.differ (by simp [Dictionary.call, hvalue]) (not_not.mpr ⟨h.mem_iff.mp hk, hunmet⟩)
  · exact Represents.agree h (by simp [Dictionary.call, Finmap.lookup_eq_none.mpr hk])
      fun hbad => hk (h.mem_iff.mpr hbad.1)

/-- A call gives the result and the count of the finite map unless it goes
astray, and then leaves what the finite map becomes. -/
theorem Represents.call (h : s.Represents c m) (hnot : c.type ≠ .index) {out : Result V × ℕ}
    (hcall : Call c s op out t) :
    Follows (Represents c) (¬ Astray c s op) (m.spec op) out t := by
  obtain ⟨ho, hcount⟩ := hcall.outcome h.toInv
  obtain ⟨r, count⟩ := out
  obtain rfl : count = t.count := hcount
  cases ho with
  | add hr => exact h.add_follows hr
  | addOrUpdate hr => exact h.addOrUpdate_follows hnot hr
  | @tryAdd _ _ offered => exact absurd offered hnot
  | remove hr => exact h.remove_follows hr
  | contains hr => exact h.contains_follows hr
  | foundValue hmet hlive hkey => exact h.foundValue_follows hmet hlive hkey
  | noValue hunmet => exact h.noValue_follows hunmet
  | @tryGetIndex _ offered => exact absurd offered hnot
  | resize hr => exact Represents.agree (h.congr hr.toInv hr.held) rfl id
  | rehash hr => exact Represents.agree (h.congr hr.toInv hr.held) rfl id
  | clear hinv hzero hclean hfactor hcap =>
    have hheld := hinv.count_eq_zero hzero
    have hempty : t.Represents c (∅ : Dictionary K V) :=
      { hinv with keys := by simp [hheld], values := by simp [hheld] }
    exact Represents.agree hempty rfl id
  | setMaxLoadFactor => exact Represents.agree (h.congr (h.toInv.setMaxLoadFactor _) rfl) rfl id

theorem Constructed.represents (h : Constructed c s) :
    s.Represents c (∅ : Dictionary K V) := by
  obtain ⟨hinv, hcount, -⟩ := h.start
  have hheld := hinv.count_eq_zero hcount
  exact { hinv with keys := by simp [hheld], values := by simp [hheld] }

end Shadows

section Runs

variable [DecidableEq K]

/-- A run of a `Map` or `Set` gives the results and counts of a finite map
exactly when none of its insertions is misled. -/
theorem run_refines_iff_not_misled (hnot : c.type ≠ .index) (hfix : c.bFix = false)
    (hstart : Constructed c s) {trace : List (Op K V c.type × Result V × ℕ)}
    (hrun : Run (Call c) s trace t) :
    (replay Dictionary.spec ∅ (trace.map Prod.fst)).1 = trace.map Prod.snd ↔
      Run (guard (fun s op => ¬ Misled c s op) (Call c)) s trace t :=
  hrun.refines_iff (R := Represents c) (fun s m op out t hr hcall => by
    have hiff : Astray c s op ↔ Misled c s op := hr.astray_iff hfix
    rw [← hiff]
    exact hr.call hnot hcall) hstart.represents

/-- Colliding keys, of which one takes the slot of a removed one. -/
theorem run_refines_iff_not_misled_constantHash : ∃ (s t : Core ℕ ℕ)
    (trace : List (Op ℕ ℕ .map × Result ℕ × ℕ)),
    trace.map Prod.fst = [.add false 1 10, .add false 2 20, .remove 1, .add false 3 30,
      .addOrUpdate 2 21, .tryGetValue 2, .contains 1] ∧
    Run (guard (fun s op => ¬ Misled (constantHash .map .fast false) s op)
      (Call (constantHash .map .fast false))) s trace t := by
  have hruns : observe (constantHash .map .fast false) 100 zeroedMemory
      [.add false 1 10, .add false 2 20, .remove 1, .add false 3 30, .addOrUpdate 2 21,
        .tryGetValue 2, .contains 1] =
      .ok [(.bool true, 1), (.bool true, 2), (.bool true, 1), (.bool true, 2), (.bool false, 2),
        (.value (some 21), 2), (.bool false, 2)] := by
    decide +kernel
  obtain ⟨s, trace, t, hstart, hrun, hops, houts⟩ := observe_run hruns
  refine ⟨s, t, trace, hops, (run_refines_iff_not_misled (by decide) rfl hstart hrun).mp ?_⟩
  rw [hops, houts]
  decide +kernel

/-- Seventeen keys of one hash, of which the first is removed: the last one is
then added a second time. -/
theorem run_differs_after_removal : ∃ (s t : Core ℕ ℕ)
    (trace : List (Op ℕ ℕ .map × Result ℕ × ℕ)), Constructed (constantHash .map .fast false) s ∧
    Run (Call (constantHash .map .fast false)) s trace t ∧
    trace.map Prod.fst = (List.range 17).map (fun k => .add false k k) ++
      [.remove 0, .add false 16 1] ∧
    (replay Dictionary.spec ∅ (trace.map Prod.fst)).1 ≠ trace.map Prod.snd := by
  have hruns : observe (constantHash .map .fast false) 100 zeroedMemory
      ((List.range 17).map (fun k => .add false k k) ++ [.remove 0, .add false 16 1]) =
      .ok ((List.range 17).map (fun k => (.bool true, k + 1)) ++
        [(.bool true, 16), (.bool true, 17)]) := by
    decide +kernel
  obtain ⟨s, trace, t, hstart, hrun, hops, houts⟩ := observe_run hruns
  refine ⟨s, t, trace, hstart, hrun, hops, ?_⟩
  rw [hops, houts]
  decide +kernel

/-- The calls of a client that only adds absent keys, and does so without
looking for them. -/
def AddsAbsent (c : Template K) (s : Core K V) : Op K V c.type → Prop
  | .add bUnique key _ => bUnique = true ∧ ¬ HasKey c s key
  | .addOrUpdate _ _ _ => False
  | .tryAdd _ _ _ => False
  | _ => True

omit [DecidableEq K] in
theorem AddsAbsent.not_misled {op : Op K V c.type} (h : AddsAbsent c s op) : ¬ Misled c s op := by
  cases op with
  | add bUnique key value =>
    obtain ⟨rfl, hkey⟩ := h
    exact hkey
  | addOrUpdate key value offered => exact h.elim
  | tryAdd key value offered => exact h.elim
  | _ => exact id

/-- A `Map` or `Set` whose clients only add absent keys is a finite map: the
results and counts are its results and counts, its entries are those of the
live slots, no two of which hold the same key, and rebuilding leaves them alone. -/
theorem unchecked_run_refines (hnot : c.type ≠ .index) (hfix : c.bFix = false)
    (hstart : Constructed c s) {trace : List (Op K V c.type × Result V × ℕ)}
    (hrun : Run (guard (AddsAbsent c) (Call c)) s trace t) :
    (replay Dictionary.spec ∅ (trace.map Prod.fst)).1 = trace.map Prod.snd ∧
    (∀ i < t.capacity, ∀ j < t.capacity, t.tags.cell i < 0x80 → t.tags.cell j < 0x80 →
      (t.entries.cell i).key = (t.entries.cell j).key → i = j) ∧
    (∀ key, (∃ e ∈ t.liveEntries, e.key = key) ↔
      key ∈ (replay Dictionary.spec ∅ (trace.map Prod.fst)).2) ∧
    (c.type = .map → ∀ e ∈ t.liveEntries,
      (replay Dictionary.spec ∅ (trace.map Prod.fst)).2.lookup e.key = some e.value) ∧
    ∀ op out u, ((∃ size, op = .resize size) ∨ ∃ offered, op = .rehash offered) →
      Call c t op out u → u.liveEntries = t.liveEntries := by
  obtain ⟨houts, hend⟩ := hrun.refines (R := Represents c)
    (fun s m op out t hr hcall => by
      obtain ⟨hiff, hnext⟩ := hr.call hnot hcall.2
      have hok : ¬ Astray c s op := (hr.astray_iff hfix).not.mpr hcall.1.not_misled
      exact ⟨hiff.mpr hok, hnext hok⟩) hstart.represents
  have hheld := hend.entriesHeld_eq hnot
  refine ⟨houts, ?_, ?_, ?_, ?_⟩
  · intro i hi j hj htagi htagj hkey
    exact hend.key_unique ((hend.slots_live hnot).mpr ⟨hi, htagi, rfl⟩)
      ((hend.slots_live hnot).mpr ⟨hj, htagj, rfl⟩) hkey
  · intro key
    rw [hend.mem_iff, ← hheld]
    exact exists_entriesHeld
  · intro hmap e he
    exact hend.values hmap e (hheld ▸ he)
  · rintro op ⟨r, count⟩ u hop hcall
    have hu := (hcall.inv hend.toInv).entriesHeld_eq hnot
    have ho := (hcall.outcome hend.toInv).1
    rw [← hu, ← hheld]
    rcases hop with ⟨size, rfl⟩ | ⟨offered, rfl⟩
    · cases ho with
      | resize hr => exact hr.held
    · cases ho with
      | rehash hr => exact hr.held

/-- Two colliding keys, and a third one in the slot of the first. -/
abbrev reusedSlot : List (Op ℕ ℕ .map) :=
  [.add true 1 10, .add true 2 20, .remove 1, .add true 3 30, .contains 2]

theorem unchecked_run_refines_constantHash : ∃ (s t : Core ℕ ℕ)
    (trace : List (Op ℕ ℕ .map × Result ℕ × ℕ)),
    Run (Call (constantHash .map .fast false)) s trace t ∧
    trace.map Prod.fst = reusedSlot ∧
    (replay Dictionary.spec ∅ (trace.map Prod.fst)).1 = trace.map Prod.snd := by
  have hruns : observe (constantHash .map .fast false) 100 zeroedMemory reusedSlot =
      .ok [(.bool true, 1), (.bool true, 2), (.bool true, 1), (.bool true, 2), (.bool true, 2)] := by
    decide +kernel
  have hlookups : ∀ n key, n = 0 ∧ key = 1 ∨ n = 1 ∧ key = 2 ∨ n = 3 ∧ key = 3 →
      (after (constantHash .map .fast false) 100 zeroedMemory (reusedSlot.take n) >>= fun u =>
        u.findEntry (constantHash .map .fast false) 100 key) = .ok none := by
    rintro n key (⟨rfl, rfl⟩ | ⟨rfl, rfl⟩ | ⟨rfl, rfl⟩) <;> decide +kernel
  have habsent {n key : ℕ} {u : Core ℕ ℕ} (hkey : n = 0 ∧ key = 1 ∨ n = 1 ∧ key = 2 ∨ n = 3 ∧ key = 3)
      (hafter : after (constantHash .map .fast false) 100 zeroedMemory (reusedSlot.take n) = .ok u) :
      ¬ HasKey (constantHash .map .fast false) u key := by
    have hnone := hlookups n key hkey
    rw [hafter, Exec.ok_bind] at hnone
    have hu : Reachable (constantHash .map .fast false) u := reachable_of_after hafter
    intro hhas
    obtain ⟨i, e, hlive, hek⟩ := hhas
    rcases hu.inv.findEntry_value rfl hnone with ⟨j, e', -, -, hr⟩ | ⟨-, hmiss⟩
    · cases hr
    · exact hmiss i e hlive hek
  have hadds : ∀ n (u : Core ℕ ℕ) (op : Op ℕ ℕ .map),
      after (constantHash .map .fast false) 100 zeroedMemory (reusedSlot.take n) = .ok u →
      reusedSlot[n]? = some op → AddsAbsent (constantHash .map .fast false) u op := by
    intro n u op hafter hop
    obtain ⟨hn, rfl⟩ := List.getElem?_eq_some_iff.mp hop
    simp only [reusedSlot, List.length_cons, List.length_nil] at hn
    clear hop hruns hlookups
    interval_cases n
    · exact ⟨rfl, habsent (by simp) hafter⟩
    · exact ⟨rfl, habsent (by simp) hafter⟩
    · trivial
    · exact ⟨rfl, habsent (by simp) hafter⟩
    · trivial
  obtain ⟨s, trace, t, hstart, hguard, hops, -⟩ := observe_guard hruns hadds
  refine ⟨s, t, trace, hguard.imp fun _ _ _ _ h => h.2, hops, ?_⟩
  exact (unchecked_run_refines (by decide) rfl hstart hguard).1

end Runs

end Core

end SimdHash
