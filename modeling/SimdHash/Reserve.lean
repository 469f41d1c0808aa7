import SimdHash.Fuel
import SimdHash.Insertions
import SimdHash.Selection

/-! What a reserve made with `Mode::ResizeOnlyEmpty` is good for. The capacity
is chosen with `MAX_LOAD_FACTOR` and clamped to one page, the growth trigger
with the load factor in force, so a reserve for `n` keys can be too small. -/

namespace SimdHash

open Exec OpenAddressing TagVector

/-- The slots reserved for `size` entries, below `MAX_SIZE`. -/
def reserve (size : ℕ) : ℕ :=
  if size ≤ minSize then minSize
  else pageSize * ((⌊(size : ℚ) / LoadFactor.max⌋₊ + (pageSize - 1)) / pageSize)

theorem adjustCapacity_eq_reserve {size : ℕ} (h : adjustCapacity .resizeOnlyEmpty size < maxSize) :
    adjustCapacity .resizeOnlyEmpty size = reserve size := by
  by_cases hmin : size ≤ minSize
  · rw [adjustCapacity_of_le hmin, reserve, if_pos hmin]
  by_cases hmax : maxSize ≤ size
  · rw [adjustCapacity_of_ge hmax] at h
    exact absurd h (lt_irrefl _)
  rw [adjustCapacity.eq_def, if_neg hmin, if_neg hmax] at h ⊢
  rw [reserve, if_neg hmin]
  simp only [reservedCapacity] at h ⊢
  generalize ⌊(size : ℚ) / LoadFactor.max⌋₊ = n at h ⊢
  split_ifs at h ⊢ with h1 h2 h3
  all_goals simp only [pageSize] at *
  all_goals omega

theorem lt_of_adjustCapacity_lt {mode : Mode} {size : ℕ} (h : adjustCapacity mode size < maxSize) :
    size < maxSize := by
  by_contra hge
  rw [adjustCapacity_of_ge (not_lt.mp hge)] at h
  exact lt_irrefl _ h

namespace Core

variable {K V : Type} {c : Template K} {s t u : Core K V}

section Limits

/-- The load factor leaves room for one more entry than `size`. -/
def Spacious (s : Core K V) (size : ℕ) : Prop :=
  s.capacity = maxSize ∨ (size + 1 : ℚ) ≤ max s.capacity (reserve size) * s.maxLoadFactor

theorem Inv.spacious_iff (h : s.Inv c) (hmode : c.mode = .resizeOnlyEmpty) {size : ℕ}
    (hmax : adjustCapacity c.mode size < maxSize) (ht : Resized c s size t) :
    Spacious s size ↔ size < t.countGrowthLimit := by
  have hsize := lt_of_adjustCapacity_lt hmax
  rw [hmode] at hmax
  have hcapacity : t.capacity = max s.capacity (reserve size) := by
    rw [ht.capacity, hmode, adjustCapacity_eq_reserve hmax]
  have hlt : reserve size < maxSize := adjustCapacity_eq_reserve hmax ▸ hmax
  rw [ht.limit_eq, ht.factor, hcapacity, Spacious, growthLimit]
  have hle := h.geometry.isCapacity.le_max
  by_cases hfull : s.capacity = maxSize
  · rw [if_neg (by omega)]
    exact iff_of_true (.inl hfull) hsize
  · have hpos : (0 : ℚ) ≤ (max s.capacity (reserve size) : ℕ) * s.maxLoadFactor := by
      have hfactor : (0 : ℚ) ≤ s.maxLoadFactor :=
        (by norm_num [LoadFactor.min] : (0 : ℚ) ≤ LoadFactor.min).trans h.factor_min
      positivity
    rw [if_pos (by omega), ← Nat.add_one_le_iff, Nat.le_floor_iff hpos]
    simp [hfull]

end Limits

variable [DecidableEq K] {fuel fuel' : ℕ} {bUnique bUpdate : Bool} {keys : List (K × V)}

def addProbe (c : Template K) (fuel : ℕ) (s : Core K V) (bUnique : Bool) (key : K) : Exec Probed :=
  if bUnique then s.probeUnique c fuel key else s.probeChecked c fuel key

def addAll (c : Template K) (fuel : ℕ) (bUnique bUpdate : Bool) :
    Core K V → List (K × V) → Exec (Core K V)
  | s, [] => .ok s
  | s, (key, value) :: rest => do
    let (_, t) ← s.add c fuel bUnique bUpdate key value
    addAll c fuel bUnique bUpdate t rest

/-- The searches for the keys end, in whatever state the keys before have left. -/
def ProbesEnd (c : Template K) (bUnique bUpdate : Bool) (s : Core K V) (keys : List (K × V)) : Prop :=
  ∀ before key value rest, keys = before ++ (key, value) :: rest →
    ∀ fuel t, addAll c fuel bUnique bUpdate s before = .ok t →
      ∃ fuel' r, addProbe c fuel' t bUnique key = .ok r

/-- No key is there yet, and none comes twice. -/
structure New (c : Template K) (s : Core K V) (keys : List (K × V)) : Prop where
  absent : ∀ key ∈ keys.map Prod.fst, ¬ HasKey c s key
  nodup : (keys.map Prod.fst).Nodup

section Adding

theorem addAll_approx (hle : fuel ≤ fuel') (s : Core K V) (keys : List (K × V)) :
    Approx (addAll c fuel bUnique bUpdate s keys) (addAll c fuel' bUnique bUpdate s keys) := by
  induction keys generalizing s with
  | nil => exact .refl _
  | cons entry rest ih =>
    exact (add_approx hle bUnique bUpdate entry.1 entry.2).bind fun r => ih r.2

theorem addAll_append (s : Core K V) (keys more : List (K × V)) :
    addAll c fuel bUnique bUpdate s (keys ++ more) =
      (addAll c fuel bUnique bUpdate s keys >>= fun t => addAll c fuel bUnique bUpdate t more) := by
  induction keys generalizing s with
  | nil => rfl
  | cons entry rest ih =>
    simp only [List.cons_append, addAll]
    cases s.add c fuel bUnique bUpdate entry.1 entry.2 with
    | error e => rfl
    | ok r => exact ih r.2

theorem Inv.add_new (h : s.Inv c) {key : K} {value : V} (habsent : ¬ HasKey c s key)
    {r : (Bool × ℕ) × Core K V} (hadd : s.add c fuel bUnique bUpdate key value = .ok r) :
    ∃ i, Inserted c s i key value r.2 := by
  cases h.add_ensures.value hadd with
  | inserted hslot ht => exact ⟨_, ht⟩
  | found hchecked hslot hlive hkey => exact absurd ⟨_, _, hlive, hkey⟩ habsent

omit [DecidableEq K] in
theorem Inserted.new {i : ℕ} {key : K} {value : V} {rest : List (K × V)}
    (ht : Inserted c s i key value t) (hnew : New c s ((key, value) :: rest)) : New c t rest := by
  obtain ⟨habsent, hnodup⟩ := hnew
  rw [List.map_cons, List.nodup_cons] at hnodup
  refine ⟨fun k hk hhas => ?_, hnodup.2⟩
  rcases ht.hasKey.mp hhas with rfl | hold
  · exact hnodup.1 hk
  · exact habsent k (List.mem_cons_of_mem _ hk) hold

/-- What adding new keys below the growth limit leaves. -/
structure Filling (c : Template K) (s : Core K V) (keys : List (K × V)) (u : Core K V) : Prop
    extends Inv c u where
  capacity : u.capacity = s.capacity
  limit : u.countGrowthLimit = s.countGrowthLimit
  count : u.count = s.count + keys.length
  hasKey : ∀ key, HasKey c u key ↔ key ∈ keys.map Prod.fst ∨ HasKey c s key

omit [DecidableEq K] in
theorem Inserted.below {i : ℕ} {key : K} {value : V} (h : s.Inv c)
    (ht : Inserted c s i key value t) (hlimit : s.count + 1 ≠ s.countGrowthLimit) :
    t.capacity = s.capacity ∧ t.countGrowthLimit = s.countGrowthLimit := by
  have hcapacity : t.capacity = s.capacity := by rw [ht.capacity, if_neg hlimit]
  exact ⟨hcapacity, by rw [ht.limit_eq, h.limit_eq, hcapacity, ht.factor]⟩

theorem Inv.filling (h : s.Inv c) (hnew : New c s keys)
    (hlimit : s.count + keys.length < s.countGrowthLimit)
    (hrun : addAll c fuel bUnique bUpdate s keys = .ok u) : Filling c s keys u := by
  induction keys generalizing s with
  | nil =>
    obtain rfl : s = u := by simpa [addAll] using hrun
    exact { h with capacity := rfl, limit := rfl, count := rfl, hasKey := by simp }
  | cons entry rest ih =>
    obtain ⟨key, value⟩ := entry
    rw [List.length_cons] at hlimit
    obtain ⟨r, hadd, hrest⟩ := Exec.bind_eq_ok.mp hrun
    obtain ⟨i, ht⟩ := h.add_new (hnew.absent key (by simp)) hadd
    obtain ⟨hcapacity, hlimit'⟩ := ht.below h (by omega)
    have hcount := ht.count
    have hfill := ih ht.toInv (ht.new hnew) (by omega) hrest
    refine
      { hfill.toInv with
        capacity := hfill.capacity.trans hcapacity
        limit := hfill.limit.trans hlimit'
        count := ?_
        hasKey := fun k => ?_ }
    · rw [hfill.count, List.length_cons]
      omega
    · rw [hfill.hasKey, ht.hasKey, List.map_cons, List.mem_cons]
      exact or_left_comm.trans or_assoc.symm

theorem Inv.hasFree_of_probe (h : s.Inv c) {key : K} (habsent : ¬ HasKey c s key) {r : Probed}
    (hprobe : addProbe c fuel s bUnique key = .ok r) :
    ∃ i, r = .free i ∧ s.FreeSlot c bUnique key i := by
  cases bUnique with
  | true => exact (h.probeUnique_ensures key).value hprobe
  | false =>
    rcases (h.probeChecked_ensures key).value hprobe with ⟨i, -, hfound⟩ | hfree
    · obtain ⟨-, -, -, -, e, hlive, hkey⟩ := hfound
      exact absurd ⟨i, e, hlive, hkey⟩ habsent
    · exact hfree

theorem Inv.exists_filling (h : s.Inv c) (hnew : New c s keys)
    (hends : ProbesEnd c bUnique bUpdate s keys)
    (hlimit : s.count + keys.length < s.countGrowthLimit) :
    ∃ fuel u, addAll c fuel bUnique bUpdate s keys = .ok u ∧ Filling c s keys u := by
  suffices hruns : ∃ fuel u, addAll c fuel bUnique bUpdate s keys = .ok u by
    obtain ⟨fuel, u, hrun⟩ := hruns
    exact ⟨fuel, u, hrun, h.filling hnew hlimit hrun⟩
  induction keys generalizing s with
  | nil => exact ⟨0, s, rfl⟩
  | cons entry rest ih =>
    obtain ⟨key, value⟩ := entry
    rw [List.length_cons] at hlimit
    have habsent := hnew.absent key (by simp)
    obtain ⟨fuel₀, r, hprobe⟩ := hends [] key value rest rfl 0 s rfl
    obtain ⟨i, -, n, -, hmem, hfree, -⟩ := h.hasFree_of_probe habsent hprobe
    have hplace : ∃ n, HasFree (s.slots c) (s.windows c (c.hasher key) n) := ⟨n, i, hmem, hfree⟩
    obtain ⟨fuel₁, r, hadd, -⟩ := h.add_returns_of_free (by omega) hplace bUnique bUpdate value
    obtain ⟨j, ht⟩ := h.add_new habsent hadd
    have hmore {fuel : ℕ} (hle : fuel₁ ≤ fuel) :
        s.add c fuel bUnique bUpdate key value = .ok r :=
      (add_approx hle bUnique bUpdate key value).value hadd
    have hends' : ProbesEnd c bUnique bUpdate r.2 rest := by
      intro before key' value' rest' heq fuel t hrun
      refine hends ((key, value) :: before) key' value' rest' (by rw [heq]; rfl)
        (max fuel₁ fuel) t ?_
      simp only [addAll, hmore (le_max_left _ _), Exec.ok_bind]
      exact (addAll_approx (le_max_right _ _) r.2 before).value hrun
    obtain ⟨-, hlimit'⟩ := ht.below h (by omega)
    have hcount := ht.count
    obtain ⟨fuel₂, u, hrest⟩ := ih ht.toInv (ht.new hnew) hends' (by omega)
    refine ⟨max fuel₁ fuel₂, u, ?_⟩
    simp only [addAll, hmore (le_max_left _ _), Exec.ok_bind]
    exact (addAll_approx (le_max_right _ _) r.2 rest).value hrest

theorem Inv.addAll_capacity_le (h : s.Inv c) (hnew : New c s keys)
    (hrun : addAll c fuel bUnique bUpdate s keys = .ok u) : s.capacity ≤ u.capacity := by
  induction keys generalizing s with
  | nil =>
    obtain rfl : s = u := by simpa [addAll] using hrun
    exact le_rfl
  | cons entry rest ih =>
    obtain ⟨r, hadd, hrest⟩ := Exec.bind_eq_ok.mp hrun
    obtain ⟨i, ht⟩ := h.add_new (hnew.absent entry.1 (by simp)) hadd
    refine le_trans ?_ (ih ht.toInv (ht.new hnew) hrest)
    rw [ht.capacity]
    split_ifs
    · exact le_max_left _ _
    · exact le_rfl

/-- The key that reaches the limit makes the table grow, if anything returns. -/
theorem Inv.addAll_grows (h : s.Inv c) (hnew : New c s keys) (hlt : s.capacity < maxSize)
    (hbelow : s.count < s.countGrowthLimit) (hlimit : s.countGrowthLimit ≤ s.count + keys.length)
    (hrun : addAll c fuel bUnique bUpdate s keys = .ok u) : s.capacity < u.capacity := by
  induction keys generalizing s with
  | nil =>
    rw [List.length_nil] at hlimit
    omega
  | cons entry rest ih =>
    obtain ⟨key, value⟩ := entry
    rw [List.length_cons] at hlimit
    obtain ⟨r, hadd, hrest⟩ := Exec.bind_eq_ok.mp hrun
    obtain ⟨i, ht⟩ := h.add_new (hnew.absent key (by simp)) hadd
    by_cases hreach : s.count + 1 = s.countGrowthLimit
    · obtain ⟨hgrow, -⟩ := ht.grows h hlt hreach
      exact hgrow.trans_le (ht.toInv.addAll_capacity_le (ht.new hnew) hrest)
    · obtain ⟨hcapacity, hlimit'⟩ := ht.below h hreach
      have hcount := ht.count
      have hgrow := ih ht.toInv (ht.new hnew) (hcapacity ▸ hlt) (by omega) (by omega) hrest
      rwa [hcapacity] at hgrow

end Adding

/-- After `Resize(size)` on an empty container, `size` keys whose searches end
can be added without growth exactly if the reserve leaves room for one more. -/
theorem reserve_honoured_iff (hmode : c.mode = .resizeOnlyEmpty) (hs : Reachable c s)
    (hempty : s.count = 0) {size : ℕ} (hmax : adjustCapacity c.mode size < maxSize)
    (hresize : s.resize c fuel size = .ok t) (hdistinct : (keys.map Prod.fst).Nodup)
    (hlength : keys.length = size) (hends : ProbesEnd c bUnique bUpdate t keys) :
    ((∃ fuel u, addAll c fuel bUnique bUpdate t keys = .ok u ∧ u.capacity = t.capacity) ∧
      ∀ fuel, addAll c fuel bUnique bUpdate t keys ≠ .error .assertion) ↔ Spacious s size := by
  have hresized := (hs.inv.resize_ensures size).value hresize
  have ht : t.Inv c := hresized.toInv
  have hcount : t.count = 0 := hresized.count.trans hempty
  have hnew : New c t keys := by
    refine ⟨fun key _ hhas => ?_, hdistinct⟩
    obtain ⟨i, e, hlive, -⟩ := hhas
    exact ht.not_live_of_count hcount i e hlive
  rw [hs.inv.spacious_iff hmode hmax hresized]
  constructor
  · intro hhonoured
    obtain ⟨⟨fuel', u, hrun, hcapacity⟩, -⟩ := hhonoured
    by_contra hge
    have hle := ht.geometry.isCapacity.le_max
    have hlt : t.capacity < maxSize := by
      refine lt_of_le_of_ne hle fun hfull => hge ?_
      rw [ht.limit_eq, growthLimit, if_neg (by omega)]
      exact lt_of_adjustCapacity_lt hmax
    have hgrow := ht.addAll_grows hnew hlt (hcount ▸ ht.limit_pos hlt) (by omega) hrun
    omega
  · intro hlimit
    obtain ⟨fuel', u, hrun, hfill⟩ := ht.exists_filling hnew hends (by omega)
    refine ⟨⟨fuel', u, hrun, hfill.capacity⟩, fun fuel'' habort => ?_⟩
    have hmore := (addAll_approx (le_max_left fuel' fuel'') t keys).value hrun
    have happrox : Approx (addAll c fuel'' bUnique bUpdate t keys)
        (addAll c (max fuel' fuel'') bUnique bUpdate t keys) :=
      addAll_approx (le_max_right _ _) t keys
    rcases happrox with hout | hsame
    · rw [hout] at habort
      cases habort
    · rw [hsame, hmore] at habort
      cases habort

section Samples

/-- Where the number of pages is prime to 15 the searches up to the limit end. -/
theorem Inv.probesEnd (h : s.Inv c) (hco : Nat.Coprime 15 (s.capacity / pageSize))
    (hlt : s.capacity < maxSize) (hnew : New c s keys)
    (hlimit : s.count + keys.length ≤ s.countGrowthLimit) : ProbesEnd c bUnique bUpdate s keys := by
  intro before key value rest heq fuel t hrun
  subst heq
  have hnew' : New c s before := by
    refine ⟨fun k hk => hnew.absent k ?_, ?_⟩
    · rw [List.map_append]
      exact List.mem_append_left _ hk
    · have hnodup := hnew.nodup
      rw [List.map_append] at hnodup
      exact hnodup.of_append_left
  rw [List.length_append, List.length_cons] at hlimit
  have hfill := h.filling hnew' (by omega) hrun
  have hcount := hfill.count
  have hbelow := hfill.limit
  have hroom := hfill.toInv.roomy (hfill.capacity.symm ▸ hco) (hfill.capacity.symm ▸ hlt)
    (fun _ => by omega) (le_refl maxSize)
  obtain ⟨n, hn, hfree⟩ := hfill.geometry.hasFree hfill.size_eq hroom (t := t.slots c)
    (hfill.count_eq ▸ Nat.lt_succ_self t.count) (c.hasher key)
  refine ⟨maxSize, ?_⟩
  cases bUnique with
  | true =>
    have hprobe : Ensures (t.probeUnique c maxSize key) _ _ := hfill.probeUnique_ensures key
    obtain ⟨r, hr, -⟩ := hprobe.returns fun e he => he.2 n hn hfree
    exact ⟨r, hr⟩
  | false =>
    have hprobe : Ensures (t.probeChecked c maxSize key) _ _ := hfill.probeChecked_ensures key
    obtain ⟨r, hr, -⟩ := hprobe.returns (by
      intro e he
      obtain ⟨-, hsmall | hfull⟩ := he
      · exact absurd hsmall (by decide)
      · exact hfull n hn hfree)
    exact ⟨r, hr⟩

theorem reserve_honoured_iff_constantHash : ∃ (t : Core ℕ ℕ) (fuel : ℕ) (u : Core ℕ ℕ),
    t.capacity = 28672 ∧ u.capacity = 28672 ∧
    addAll (constantHash .map .resizeOnlyEmpty false) fuel false false t
      ((List.range 25000).map fun k => (k, k)) = .ok u := by
  set keys : List (ℕ × ℕ) := (List.range 25000).map fun k => (k, k) with hkeys
  have hdistinct : (keys.map Prod.fst).Nodup := by
    rw [hkeys, List.map_map]
    exact List.nodup_range.map fun _ _ h => h
  have hlength : keys.length = 25000 := by rw [hkeys, List.length_map, List.length_range]
  obtain ⟨s, hstart⟩ :=
    exists_constructed (constantHash .map .resizeOnlyEmpty false) zeroedMemory
  obtain ⟨h, hcount, -, hcap, hfactor⟩ := hstart.start
  have hreach : Reachable (constantHash .map .resizeOnlyEmpty false) s := ⟨s, [], hstart, .nil s⟩
  have hsize : adjustCapacity .resizeOnlyEmpty 25000 = 28672 := by decide +kernel
  have hreserve : Ensures (s.resize (constantHash .map .resizeOnlyEmpty false) 0 25000) _ _ :=
    h.resize_ensures 25000
  obtain ⟨t, hresize, ht⟩ := hreserve.returns fun e he => he.1 hcount
  have htcap : t.capacity = 28672 := by
    rw [ht.capacity, hcap, hsize]
    rfl
  have htcount : t.count = 0 := ht.count.trans hcount
  have hlt : t.capacity < maxSize := by
    rw [htcap]
    decide
  have hspacious : Spacious s 25000 := by
    refine .inr ?_
    rw [hcap, hfactor]
    decide +kernel
  have hends : ProbesEnd (constantHash .map .resizeOnlyEmpty false) false false t keys := by
    refine ht.toInv.probesEnd (by rw [htcap]; decide) hlt ⟨?_, hdistinct⟩ ?_
    · intro key _ hhas
      obtain ⟨i, e, hlive, -⟩ := hhas
      exact ht.not_live_of_count htcount i e hlive
    · rw [hlength, htcount, ht.limit_eq, htcap, ht.factor, hfactor]
      decide +kernel
  obtain ⟨⟨fuel, u, hrun, hucap⟩, -⟩ := (reserve_honoured_iff rfl hreach hcount
    (by rw [hsize]; decide) hresize hdistinct hlength hends).mpr hspacious
  exact ⟨t, fuel, u, htcap, hucap.trans htcap, hrun⟩

end Samples

section Abort

theorem Inv.add_aborts (hmode : c.mode = .resizeOnlyEmpty) (hdebug : c.bDebug = true)
    (h : s.Inv c) (hlt : s.capacity < maxSize) (hlimit : s.count + 1 = s.countGrowthLimit)
    {key : K} (habsent : ¬ HasKey c s key) {r : Probed}
    (hprobe : addProbe c fuel s bUnique key = .ok r) (value : V) :
    s.add c fuel bUnique bUpdate key value = .error .assertion := by
  obtain ⟨i, rfl, hslot⟩ := h.hasFree_of_probe habsent hprobe
  have hsettings : SameSettings s (Core.paged c s) := paged_sameSettings
  have hgrow : ¬ (Core.placed c (Core.paged c s) i (newEntry c s i key value)).capacity >
      adjustCapacity c.mode (s.capacity + 1) := by
    have hcapacity : (Core.placed c (Core.paged c s) i (newEntry c s i key value)).capacity = s.capacity :=
      hsettings.capacity
    have hle : s.capacity + 1 ≤ adjustCapacity c.mode (s.capacity + 1) :=
      le_adjustCapacity c.mode hlt
    omega
  have hcount : ¬ (Core.placed c (Core.paged c s) i (newEntry c s i key value)).count = 0 :=
    Nat.succ_ne_zero _
  have hassert : Exec.assert (c.bDebug && c.mode = .resizeOnlyEmpty)
      ((Core.placed c (Core.paged c s) i (newEntry c s i key value)).count = 0) = .error .assertion :=
    if_pos ⟨by simp [hdebug, hmode], hcount⟩
  have hinsert : s.insert c fuel i key value = .error .assertion := by
    rw [insert_eq h hslot.lt_size, if_pos hlimit, resize_eq hgrow, hassert]
    rfl
  cases bUnique with
  | true =>
    have hsearch : s.probeUnique c fuel key = .ok (.free i) := hprobe
    simp only [add, if_true, hsearch, Exec.ok_bind, hinsert, Exec.error_bind]
  | false =>
    have hsearch : s.probeChecked c fuel key = .ok (.free i) := hprobe
    simp only [add, Bool.false_eq_true, if_false, hsearch, Exec.ok_bind, hinsert, Exec.error_bind]

/-- A new container with a reserve for 4000 keys has its growth limit at 4000:
the last key aborts the program. -/
theorem reserve_not_honoured : ∃ (s t : Core ℕ ℕ) (fuel : ℕ),
    Constructed (constantHash .map .resizeOnlyEmpty false) s ∧
    s.maxLoadFactor = LoadFactor.def ∧
    adjustCapacity .resizeOnlyEmpty 4000 < maxSize ∧
    s.resize (constantHash .map .resizeOnlyEmpty false) 0 4000 = .ok t ∧
    ((List.range 4000).map fun k => (k, 0)).length = 4000 ∧
    (((List.range 4000).map fun k => (k, 0)).map Prod.fst).Nodup ∧
    ProbesEnd (constantHash .map .resizeOnlyEmpty false) false false t
      ((List.range 4000).map fun k => (k, 0)) ∧
    addAll (constantHash .map .resizeOnlyEmpty false) fuel false false t
      ((List.range 4000).map fun k => (k, 0)) = .error .assertion := by
  obtain ⟨s, hstart⟩ :=
    exists_constructed (constantHash .map .resizeOnlyEmpty false) zeroedMemory
  obtain ⟨h, hcount, -, hcap, hfactor⟩ := hstart.start
  have hsize : adjustCapacity .resizeOnlyEmpty 4000 = 4096 := adjustCapacity_of_le (by decide)
  have hreserve : Ensures (s.resize (constantHash .map .resizeOnlyEmpty false) 0 4000) _ _ :=
    h.resize_ensures 4000
  obtain ⟨t, hresize, ht⟩ := hreserve.returns fun e he => he.1 hcount
  have htcap : t.capacity = 4096 := by
    rw [ht.capacity, hcap, hsize]
    rfl
  have htcount : t.count = 0 := ht.count.trans hcount
  have hlimit : t.countGrowthLimit = 4000 := by
    rw [ht.limit_eq, htcap, ht.factor, hfactor]
    decide +kernel
  have hlt : t.capacity < maxSize := by
    rw [htcap]
    decide
  have hfst (n : ℕ) : ((List.range n).map fun k => (k, 0)).map Prod.fst = List.range n := by
    rw [List.map_map]
    exact List.map_id _
  have hnew (n : ℕ) : New (constantHash .map .resizeOnlyEmpty false) t
      ((List.range n).map fun k => (k, 0)) := by
    refine ⟨fun key _ hhas => ?_, by rw [hfst]; exact List.nodup_range⟩
    obtain ⟨i, e, hlive, -⟩ := hhas
    exact ht.not_live_of_count htcount i e hlive
  have hends (n : ℕ) (hn : n ≤ 4000) :
      ProbesEnd (constantHash .map .resizeOnlyEmpty false) false false t
        ((List.range n).map fun k => (k, 0)) := by
    refine ht.toInv.probesEnd (by rw [htcap]; decide) hlt (hnew n) ?_
    rw [List.length_map, List.length_range]
    omega
  -- all keys but the last are below the limit
  obtain ⟨fuel, u, hrun, hfill⟩ := ht.toInv.exists_filling (hnew 3999) (hends 3999 (by decide)) (by
    rw [List.length_map, List.length_range]
    omega)
  have hsplit : (List.range 4000).map (fun k => (k, 0)) =
      (List.range 3999).map (fun k => (k, 0)) ++ [(3999, 0)] := by
    rw [List.range_succ, List.map_append]
    rfl
  have habsent : ¬ HasKey (constantHash .map .resizeOnlyEmpty false) u 3999 := by
    rw [hfill.hasKey, hfst]
    intro hhas
    rcases hhas with hmem | ⟨i, e, hlive, -⟩
    · exact absurd (List.mem_range.mp hmem) (lt_irrefl _)
    · exact ht.not_live_of_count htcount i e hlive
  obtain ⟨fuel', r, hprobe⟩ := hends 4000 le_rfl _ 3999 0 [] hsplit fuel u hrun
  have hreach : u.count + 1 = u.countGrowthLimit := by
    rw [hfill.count, hfill.limit, hlimit, htcount, List.length_map, List.length_range]
  have habort : u.add (constantHash .map .resizeOnlyEmpty false) fuel' false false 3999 0 =
      .error .assertion :=
    hfill.toInv.add_aborts rfl rfl (hfill.capacity.symm ▸ hlt) hreach habsent hprobe 0
  refine ⟨s, t, max fuel fuel', hstart, hfactor, by rw [hsize]; decide, hresize, by simp,
    by rw [hfst]; exact List.nodup_range, hends 4000 le_rfl, ?_⟩
  have hmore := (addAll_approx (le_max_left fuel fuel') t _).value hrun
  rw [hsplit, addAll_append, hmore, Exec.ok_bind, addAll]
  rcases add_approx (le_max_right fuel fuel') false false 3999 0 with hout | hsame
  · rw [hout] at habort
    cases habort
  · rw [← hsame, habort]
    rfl

end Abort

end Core

end SimdHash
