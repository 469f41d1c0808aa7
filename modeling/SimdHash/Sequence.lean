import SimdHash.Dictionary
import SimdHash.Limits
import SimdHash.Iteration

/-! The list of keys that an `Index` stands for, in the order in which they
were first added. Nothing is ever removed from the table of an `Index`, so its
probes meet no tombstones and no insertion misses a stored key. -/

namespace SimdHash

open OpenAddressing Transition

/-- The keys of an `Index`, in the order of their indices. -/
abbrev Sequence (K : Type) := List K

namespace Sequence

variable {K V : Type} [DecidableEq K] {t : ContainerType}

/-- What a call returns and leaves. The last four calls are not offered here. -/
def call (l : Sequence K) : Op K V t → Result V × Sequence K
  | .add _ key _ => if key ∈ l then (.bool false, l) else (.bool true, l ++ [key])
  | .tryAdd key _ _ =>
    if key ∈ l then (.added false (l.idxOf key), l) else (.added true l.length, l ++ [key])
  | .contains key => (.bool (key ∈ l), l)
  | .tryGetIndex key _ => (.index (if key ∈ l then some (l.idxOf key) else none), l)
  | .resize _ => (.void, l)
  | .clear _ => (.void, [])
  | .setMaxLoadFactor _ => (.void, l)
  | .addOrUpdate _ _ _ => (.void, l)
  | .remove _ _ => (.void, l)
  | .tryGetValue _ _ => (.void, l)
  | .rehash _ => (.void, l)

def spec (l : Sequence K) (op : Op K V t) : (Result V × ℕ) × Sequence K :=
  (((l.call op).1, (l.call op).2.length), (l.call op).2)

theorem prefix_call {op : Op K V t} (hclear : ∀ size, op ≠ .clear size)
    (l : Sequence K) : l <+: (l.spec op).2 := by
  cases op with
  | add bUnique key value =>
    simp only [spec, call]
    split_ifs
    · exact List.prefix_rfl
    · exact List.prefix_append l [key]
  | tryAdd key value offered =>
    simp only [spec, call]
    split_ifs
    · exact List.prefix_rfl
    · exact List.prefix_append l [key]
  | clear size => exact absurd rfl (hclear size)
  | _ => exact List.prefix_rfl

end Sequence

namespace Core

variable {K V : Type} {c : Template K} {s t : Core K V}

section Ordered

/-- The dense array of `s` holds the keys of `l`. -/
structure Ordered (c : Template K) (s : Core K V) (l : Sequence K) : Prop extends Inv c s where
  clean : s.tags.Clean
  keys : (List.range s.count).map (fun j => (s.entries.cell j).key) = l
  nodup : l.Nodup

variable {l : Sequence K} {key : K}

theorem Ordered.count_eq_length (h : s.Ordered c l) : s.count = l.length := by
  rw [← h.keys, List.length_map, List.length_range]

theorem Ordered.mem_iff (h : s.Ordered c l) (ht : c.type = .index) : key ∈ l ↔ HasKey c s key := by
  have hheld := h.entriesHeld_index ht
  constructor
  · intro hmem
    rw [← h.keys, List.mem_map] at hmem
    obtain ⟨j, hj, hkey⟩ := hmem
    have he : s.entries.cell j ∈ s.entriesHeld c := by
      rw [hheld]
      exact Multiset.mem_map_of_mem _ (Multiset.mem_range.mpr (List.mem_range.mp hj))
    obtain ⟨i, hlive⟩ := mem_entriesHeld.mp he
    exact ⟨i, _, hlive, hkey⟩
  · intro hkey
    obtain ⟨i, e, hlive, hkey⟩ := hkey
    have he : e ∈ s.entriesHeld c := mem_entriesHeld.mpr ⟨i, hlive⟩
    rw [hheld, Multiset.mem_map] at he
    obtain ⟨j, hj, rfl⟩ := he
    rw [← h.keys, List.mem_map]
    exact ⟨j, List.mem_range.mpr (Multiset.mem_range.mp hj), hkey⟩

theorem Layout.not_shadowed (h : s.Layout c) (hclean : s.tags.Clean) (hfix : c.bFix = false)
    (key : K) : ¬ Shadowed c s key := by
  intro hs
  obtain ⟨hkey, n, hfree, hmiss⟩ := hs
  exact h.met_or_absent hfix key ⟨hkey, n, h.hasEmpty hclean hfree, hmiss⟩

theorem Ordered.insert (h : s.Ordered c l) (ht : c.type = .index) {i : ℕ} {value : V}
    (hnew : key ∉ l) (hins : Inserted c s i key value t) : t.Ordered c (l ++ [key]) := by
  obtain ⟨hlast, hfirst⟩ := hins.dense ht
  refine { hins.toInv with clean := hins.clean h.clean, keys := ?_, nodup := ?_ }
  · rw [hins.count, List.range_succ, List.map_append, ← h.keys]
    congr 1
    · refine List.map_congr_left fun j hj => ?_
      rw [hfirst j (List.mem_range.mp hj)]
    · simp [hlast]
  · refine List.nodup_append.mpr ⟨h.nodup, List.nodup_singleton key, ?_⟩
    intro a ha b hb hab
    rw [List.mem_singleton.mp hb] at hab
    exact hnew (hab ▸ ha)

theorem Constructed.ordered (h : Constructed c s) : s.Ordered c ([] : Sequence K) := by
  obtain ⟨hinv, hcount, hclean, -⟩ := h.start
  exact { hinv with clean := hclean, keys := by rw [hcount]; rfl, nodup := List.nodup_nil }

variable [DecidableEq K] {op : Op K V c.type}

theorem Ordered.ref_eq (h : s.Ordered c l) (ht : c.type = .index) {i : ℕ} {e : Entry K V}
    (hlive : s.slots c i = .live e) (hkey : e.key = key) : s.ref c i = l.idxOf key := by
  obtain ⟨hi, htag, hrec⟩ := slots_eq_live.mp hlive
  have hlt := h.ref_lt_count ht hi htag
  have hlen : s.ref c i < l.length := h.count_eq_length ▸ hlt
  have hget : l[s.ref c i] = key := by
    have hkeys : l[s.ref c i]? = some key := by
      rw [← h.keys, List.getElem?_map, List.getElem?_range hlt, Option.map_some, ← hkey, ← hrec,
        record]
    exact (List.getElem?_eq_some_iff.mp hkeys).2
  rw [← hget]
  exact (h.nodup.idxOf_getElem _ hlen).symm

/-- What a step of the list is compared with, without the counts. -/
theorem Ordered.agree (hl : t.Ordered c (l.call op).2) {r : Result V} (hr : (l.call op).1 = r)
    {ok : Prop} (hok : ok) : Follows (Ordered c) ok (l.spec op) (r, t.count) t :=
  .agree (by rw [Sequence.spec, hr, hl.count_eq_length]) hl hok

theorem Ordered.differ {r : Result V} (hr : (l.call op).1 ≠ r) {ok : Prop} (hbad : ¬ ok) :
    Follows (Ordered c) ok (l.spec op) (r, t.count) t :=
  .differ (fun heq => hr (congrArg Prod.fst heq)) hbad

variable {value : V} {bUnique b : Bool} {index : ℕ}

theorem Ordered.add_follows (h : s.Ordered c l) (ht : c.type = .index)
    (hr : Added c s bUnique false key value ((b, index), t)) :
    Follows (Ordered c) (¬ Astray c s (.add bUnique key value))
      (l.spec (.add bUnique key value : Op K V c.type)) (.bool b, t.count) t := by
  cases hr with
  | inserted hslot hins =>
    by_cases hk : key ∈ l
    · refine Ordered.differ (by simp [Sequence.call, hk]) (not_not.mpr ?_)
      exact hslot.misled_add value ((h.mem_iff ht).mp hk)
    · refine Ordered.agree ?_ (by simp [Sequence.call, hk]) ?_
      · simpa [Sequence.call, hk] using h.insert ht hk hins
      · exact fun hbad => hk ((h.mem_iff ht).mpr (Misled.hasKey hbad))
  | found hchecked hslot hlive hkey =>
    have hk : key ∈ l := (h.mem_iff ht).mpr ⟨_, _, hlive, hkey⟩
    obtain rfl := hchecked
    refine Ordered.agree ?_ (by simp [Sequence.call, hk]) hslot.not_shadowed
    simpa [Sequence.call, hk] using h

theorem Ordered.tryAdd_follows (h : s.Ordered c l) {offered : c.type = .index}
    (hr : Added c s false true key value ((b, index), t)) :
    Follows (Ordered c) (¬ Astray c s (.tryAdd key value offered))
      (l.spec (.tryAdd key value offered)) (.added b index, t.count) t := by
  cases hr with
  | inserted hslot hins =>
    by_cases hk : key ∈ l
    · refine Ordered.differ (by simp [Sequence.call, hk]) (not_not.mpr ?_)
      exact hslot.misled_add value ((h.mem_iff offered).mp hk)
    · refine Ordered.agree ?_ (by simp [Sequence.call, hk, h.count_eq_length]) ?_
      · simpa [Sequence.call, hk] using h.insert offered hk hins
      · exact fun hbad => hk ((h.mem_iff offered).mpr hbad.1)
  | found hchecked hslot hlive hkey =>
    have hk : key ∈ l := (h.mem_iff offered).mpr ⟨_, _, hlive, hkey⟩
    have href := h.ref_eq offered hlive hkey
    refine Ordered.agree ?_ (by simp [Sequence.call, hk, href]) hslot.not_shadowed
    simpa [Sequence.call, hk, offered] using h

theorem Ordered.contains_follows (h : s.Ordered c l) (ht : c.type = .index) {r : Option ℕ}
    (hr : Looked c s key r) :
    Follows (Ordered c) (¬ Astray c s (.contains key))
      (l.spec (.contains key : Op K V c.type)) (.bool r.isSome, s.count) s := by
  cases hr with
  | found hmet hlive hkey =>
    have hk : key ∈ l := (h.mem_iff ht).mpr ⟨_, _, hlive, hkey⟩
    exact Ordered.agree h (by simp [Sequence.call, hk]) fun hbad => hmet.not_unmet hbad.2
  | absent hunmet =>
    by_cases hk : key ∈ l
    · exact Ordered.differ (by simp [Sequence.call, hk])
        (not_not.mpr ⟨(h.mem_iff ht).mp hk, hunmet⟩)
    · exact Ordered.agree h (by simp [Sequence.call, hk])
        fun hbad => hk ((h.mem_iff ht).mpr hbad.1)

theorem Ordered.tryGetIndex_follows (h : s.Ordered c l) {offered : c.type = .index}
    {r : Option ℕ} (hr : Looked c s key r) :
    Follows (Ordered c) (¬ Astray c s (.tryGetIndex key offered))
      (l.spec (.tryGetIndex key offered : Op K V c.type)) (.index r, s.count) s := by
  cases hr with
  | found hmet hlive hkey =>
    have hk : key ∈ l := (h.mem_iff offered).mpr ⟨_, _, hlive, hkey⟩
    have href := h.ref_eq offered hlive hkey
    exact Ordered.agree h (by simp [Sequence.call, hk, href]) fun hbad => hmet.not_unmet hbad.2
  | absent hunmet =>
    by_cases hk : key ∈ l
    · exact Ordered.differ (by simp [Sequence.call, hk])
        (not_not.mpr ⟨(h.mem_iff offered).mp hk, hunmet⟩)
    · exact Ordered.agree h (by simp [Sequence.call, hk])
        fun hbad => hk ((h.mem_iff offered).mpr hbad.1)

/-- A call gives the result and the count of the list unless it goes astray,
and then leaves what the list becomes. -/
theorem Ordered.call (h : s.Ordered c l) (ht : c.type = .index) {out : Result V × ℕ}
    (hcall : Call c s op out t) :
    Follows (Ordered c) (¬ Astray c s op) (l.spec op) out t := by
  obtain ⟨ho, hcount⟩ := hcall.outcome h.toInv
  obtain ⟨r, count⟩ := out
  obtain rfl : count = t.count := hcount
  cases ho with
  | add hr => exact h.add_follows ht hr
  | @addOrUpdate _ _ offered => simp [ht] at offered
  | tryAdd hr => exact h.tryAdd_follows hr
  | @remove _ offered => exact absurd ht offered
  | contains hr => exact h.contains_follows ht hr
  | @foundValue _ offered => simp [ht] at offered
  | @noValue _ offered => simp [ht] at offered
  | tryGetIndex hr => exact h.tryGetIndex_follows hr
  | resize hr =>
    have hsame : t.Ordered c l :=
      { hr.toInv with
        clean := hr.clean h.clean
        keys := by rw [hr.count, hr.dense ht, h.keys]
        nodup := h.nodup }
    exact Ordered.agree hsame rfl id
  | @rehash offered => exact absurd ht offered
  | clear hinv hzero hclean hfactor hcap =>
    have hempty : t.Ordered c ([] : Sequence K) :=
      { hinv with clean := hclean, keys := by rw [hzero]; rfl, nodup := List.nodup_nil }
    exact Ordered.agree hempty rfl id
  | @setMaxLoadFactor mlf =>
    have hsame : (s.setMaxLoadFactor mlf).Ordered c l :=
      { h.toInv.setMaxLoadFactor mlf with
        clean := h.clean
        keys := h.keys
        nodup := h.nodup }
    exact Ordered.agree hsame rfl id

end Ordered

section Claims

/-- The calls of a client that leaves the load factor alone and looks for a key
before it adds it without a check. -/
def OrderedUse (c : Template K) (s : Core K V) : Op K V c.type → Prop
  | .add true key _ => ¬ HasKey c s key
  | .clear size => size = 0
  | .setMaxLoadFactor _ => False
  | _ => True

variable {l : Sequence K} {op : Op K V c.type}

theorem OrderedUse.keepsLimit (h : OrderedUse c s op) : KeepsLimit s op := by
  cases op with
  | setMaxLoadFactor mlf => exact h.elim
  | _ => trivial

theorem Ordered.not_astray (h : s.Ordered c l) (hfix : c.bFix = false) (hop : OrderedUse c s op) :
    ¬ Astray c s op := by
  rw [h.astray_iff hfix]
  cases op with
  | add bUnique key value =>
    cases bUnique with
    | true => exact hop
    | false => exact h.not_shadowed h.clean hfix key
  | addOrUpdate key value offered => exact h.not_shadowed h.clean hfix key
  | tryAdd key value offered => exact h.not_shadowed h.clean hfix key
  | _ => exact id

variable [DecidableEq K]

theorem Ordered.findEntry (h : s.Ordered c l) (ht : c.type = .index) (hfix : c.bFix = false)
    {fuel : ℕ} {key : K} {r : Option ℕ} (hrun : s.findEntry c fuel key = .ok r) :
    r = if key ∈ l then some (l.idxOf key) else none := by
  rcases h.findEntry_value hfix hrun with hfound | habsent
  · obtain ⟨i, e, hlive, hkey, rfl⟩ := hfound
    rw [if_pos ((h.mem_iff ht).mpr ⟨i, e, hlive, hkey⟩), h.ref_eq ht hlive hkey]
  · obtain ⟨rfl, hmiss⟩ := habsent
    refine (if_neg fun hmem => ?_).symm
    obtain ⟨i, e, hlive, hkey⟩ := (h.mem_iff ht).mp hmem
    exact hmiss i e hlive hkey

/-- A lookup comes to an empty slot at the latest where an insertion would end. -/
theorem Ordered.findEntry_returns (h : s.Ordered c l) (hb : Bounded s) (hm : c.mode.isPowerOfTwo)
    (hlt : s.capacity < maxSize) (key : K) : ∃ r, s.findEntry c maxSize key = .ok r := by
  have hroom := h.roomy (h.geometry.coprime_of_powerOfTwo hm) hlt hb le_rfl
  obtain ⟨n, hn, hfree⟩ := h.geometry.hasFree h.size_eq hroom (t := s.slots c)
    (h.count_eq ▸ Nat.lt_succ_self s.count) (c.hasher key)
  have hrun : Exec.Ensures (s.findEntry c maxSize key) _ _ := h.looked_ensures key
  obtain ⟨r, hr, -⟩ := hrun.returns (by
    intro e he
    obtain ⟨-, hsmall | hnone⟩ := he
    · exact absurd hsmall (by decide)
    · exact (hnone n hn).1 (h.hasEmpty h.clean hfree))
  exact ⟨r, hr⟩

theorem Ordered.exists_call (h : s.Ordered c l) (hb : Bounded s) (hm : c.mode.isPowerOfTwo)
    (ht : c.type = .index) (hlt : s.capacity < maxSize) (hop : OrderedUse c s op) :
    ∃ out t, Call c s op out t := by
  have hadd (bUnique bUpdate : Bool) (key : K) (value : V) :=
    h.add_returns hm hlt hb le_rfl bUnique bUpdate key value
  cases op with
  | add bUnique key value =>
    obtain ⟨r, hr, -⟩ := hadd bUnique false key value
    exact ⟨(.bool r.1.1, r.2.count), r.2, maxSize, by simp [step, hr], rfl⟩
  | tryAdd key value offered =>
    obtain ⟨r, hr, -⟩ := hadd false true key value
    exact ⟨(.added r.1.1 r.1.2, r.2.count), r.2, maxSize, by simp [step, hr], rfl⟩
  | contains key =>
    obtain ⟨r, hr⟩ := h.findEntry_returns hb hm hlt key
    exact ⟨(.bool r.isSome, s.count), s, maxSize, by simp [step, hr], rfl⟩
  | tryGetIndex key offered =>
    obtain ⟨r, hr⟩ := h.findEntry_returns hb hm hlt key
    exact ⟨(.index r, s.count), s, maxSize, by simp [step, hr], rfl⟩
  | resize size =>
    have hroom : s.count + 15 ≤ s.capacity := by
      have := h.limit_add_le hlt
      have := hb hlt
      omega
    obtain ⟨t, hr, -⟩ := h.resize_returns hm hroom le_rfl size
    exact ⟨(.void, t.count), t, maxSize, by simp [step, hr], rfl⟩
  | clear size =>
    obtain rfl : size = 0 := hop
    have hrun : Exec.Ensures (s.clear c maxSize 0) _ _ := h.clear_ensures 0
    obtain ⟨t, hr, -⟩ := hrun.returns fun e he => he.2 rfl
    exact ⟨(.void, t.count), t, maxSize, by simp [step, hr], rfl⟩
  | addOrUpdate key value offered => simp [ht] at offered
  | tryGetValue key offered => simp [ht] at offered
  | remove key offered => exact absurd ht offered
  | rehash offered => exact absurd ht offered
  | setMaxLoadFactor mlf => exact hop.elim

/-- An `Index` in a power-of-two mode, used without a change of the load factor,
is the list of its keys in the order of their first insertion: it returns the
indices in that list, no call but `Clear()` changes one, iterating gives the
list, and below `MAX_SIZE` every call returns. -/
theorem index_run_refines (hm : c.mode.isPowerOfTwo) (ht : c.type = .index) (hfix : c.bFix = false)
    {start : Core K V} (hstart : Constructed c start)
    {trace : List (Op K V c.type × Result V × ℕ)}
    (hrun : Run (guard (OrderedUse c) (Call c)) start trace s) :
    (replay Sequence.spec [] (trace.map Prod.fst)).1 = trace.map Prod.snd ∧
    (replay Sequence.spec [] (trace.map Prod.fst)).2.Nodup ∧
    (∀ width, ∃ fuel entries, s.visited c width fuel = .ok entries ∧
      entries.map Entry.key = (replay Sequence.spec [] (trace.map Prod.fst)).2) ∧
    (s.capacity < maxSize → ∀ op, OrderedUse c s op → ∃ out t, Call c s op out t) ∧
    ∀ more t, Run (guard (fun s op => OrderedUse c s op ∧ ∀ size, op ≠ .clear size) (Call c))
        s more t →
      ∀ key i fuel, s.findEntry c fuel key = .ok (some i) →
        ∀ fuel r, t.findEntry c fuel key = .ok r → r = some i := by
  have hstep {u w : Core K V} {l : Sequence K} {op : Op K V c.type} {out : Result V × ℕ}
      (hl : u.Ordered c l) (hop : OrderedUse c u op) (hcall : Call c u op out w) :
      (l.spec op).1 = out ∧ w.Ordered c (l.spec op).2 := by
    obtain ⟨hiff, hnext⟩ := hl.call ht hcall
    have hok := hl.not_astray hfix hop
    exact ⟨hiff.mpr hok, hnext hok⟩
  obtain ⟨-, hb⟩ := hstart.run_bounded hm (fun _ _ _ hop => OrderedUse.keepsLimit hop) hrun
  obtain ⟨houts, h⟩ := hrun.refines (R := Ordered c)
    (fun s l op out t hl hcall => hstep hl hcall.1 hcall.2) hstart.ordered
  generalize (replay Sequence.spec [] (trace.map Prod.fst)).2 = l at h
  refine ⟨houts, h.nodup, ?_, fun hlt op hop => h.exists_call hb hm ht hlt hop, ?_⟩
  · intro width
    refine ⟨s.count + 1, _, h.visited_index ht width (Nat.lt_succ_self _), ?_⟩
    rw [List.map_map]
    exact h.keys
  · intro more t hmore key i fuel hi fuel' r hr
    obtain ⟨l', hl', hfirst⟩ := hmore.invariant (I := fun u => ∃ l', u.Ordered c l' ∧ l <+: l')
      (by
        intro u op out w hu hcall
        obtain ⟨l', hl', hfirst⟩ := hu
        obtain ⟨⟨hop, hclear⟩, hcall⟩ := hcall
        exact ⟨_, (hstep hl' hop hcall).2, hfirst.trans (Sequence.prefix_call hclear l')⟩) ⟨l, h, List.prefix_rfl⟩
    have hs := h.findEntry ht hfix hi
    have hu := hl'.findEntry ht hfix hr
    by_cases hmem : key ∈ l
    · obtain ⟨rest, rfl⟩ := hfirst
      rw [if_pos hmem] at hs
      rw [hu, if_pos (List.mem_append_left rest hmem), List.idxOf_append_of_mem hmem, hs]
    · rw [if_neg hmem] at hs
      cases hs

theorem index_run_refines_constantHash : ∃ (s t : Core ℕ ℕ)
    (trace : List (Op ℕ ℕ .index × Result ℕ × ℕ)),
    Run (Call (constantHash .index .fast false)) s trace t ∧
    trace.map Prod.snd = [(.added true 0, 1), (.bool true, 2), (.added false 0, 2),
      (.index (some 1), 2)] ∧
    ∀ width, ∃ fuel entries, t.visited (constantHash .index .fast false) width fuel = .ok entries ∧
      entries.map Entry.key = [7, 5] := by
  have hruns : observe (constantHash .index .fast false) 100 zeroedMemory
      [.tryAdd 7 0, .add false 5 0, .tryAdd 7 0, .tryGetIndex 5] =
      .ok [(.added true 0, 1), (.bool true, 2), (.added false 0, 2), (.index (some 1), 2)] := by
    decide +kernel
  obtain ⟨s, trace, t, hstart, hrun, hops, houts⟩ := observe_run hruns
  have hguard : Run (guard (OrderedUse (constantHash .index .fast false))
      (Call (constantHash .index .fast false))) s trace t := by
    refine hrun.guard_of fun call hcall _ => ?_
    have hmem : call.1 ∈ trace.map Prod.fst := List.mem_map_of_mem hcall
    rw [hops] at hmem
    simp only [List.mem_cons, List.not_mem_nil, or_false] at hmem
    rcases hmem with hop | hop | hop | hop <;> rw [hop] <;> trivial
  obtain ⟨-, -, hvisit, -⟩ := index_run_refines (.inl rfl) rfl rfl hstart hguard
  rw [hops] at hvisit
  exact ⟨s, t, trace, hrun, houts, hvisit⟩

end Claims

end Core

end SimdHash
