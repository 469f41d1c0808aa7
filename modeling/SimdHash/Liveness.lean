import SimdHash.Lookups
import SimdHash.Occupancy
import SimdHash.Tombstones

/-! Lookups end as long as few enough entries have been removed since the table
was made, enlarged, rehashed or cleared. -/

namespace SimdHash

open OpenAddressing TagVector Transition

def Op.removed {K V : Type} {t : ContainerType} : Op K V t → Result V → ℕ
  | .remove _ _, .bool true => 1
  | _, _ => 0

namespace Core

variable {K V : Type} {c : Template K} {s t : Core K V} {key : K} {fuel : ℕ}

/-- The slots of removed entries. -/
def graves (c : Template K) (s : Core K V) : ℕ :=
  tombstones (Finset.range s.tags.size) (s.slots c)

theorem graves_of_clean (h : s.tags.Clean) (hvalid : s.tags.Valid) : graves c s = 0 := by
  refine tombstones_eq_zero fun i hi hslot => ?_
  have hlt := Finset.mem_range.mp hi
  rcases hvalid.tag i hlt with htag | htag | htag
  · have hlive : s.slots c i = .live (s.record c i) := slots_eq_live.mpr ⟨hlt, htag, rfl⟩
    simp [hlive] at hslot
  · have hempty : s.slots c i = .empty := TagArray.slots_eq_empty.mpr ⟨hlt, htag⟩
    simp [hempty] at hslot
  · exact h i hlt htag

theorem Touched.graves_le {op : Op K V c.type} {r : Result V} (h : Touched c s op r t)
    (ht : t.Inv c) : graves c t ≤ graves c s + op.removed r := by
  cases h with
  | purged hclean =>
    rw [graves_of_clean hclean ht.valid]
    exact Nat.zero_le _
  | kept hshape hslots =>
    rw [graves, graves, hslots, hshape.size]
    exact Nat.le_add_right _ _
  | revalued hshape hlive hkey hslots =>
    rw [graves, graves, hslots, hshape.size]
    exact (tombstones_fill_le _).trans (Nat.le_add_right _ _)
  | filled h =>
    rw [graves, graves, h.slots, h.shape.size]
    exact (tombstones_fill_le _).trans (Nat.le_add_right _ _)
  | buried hshape hlive hkey hslots =>
    rw [graves, graves, hslots, hshape.size]
    exact tombstones_bury_le

/-- Only a rebuild enlarges a table. -/
theorem Touched.clean_of_grown {op : Op K V c.type} {r : Result V} (h : Touched c s op r t)
    (hlt : s.capacity < t.capacity) : t.tags.Clean := by
  have hshape (h : SameShape s t) : t.tags.Clean := absurd h.capacity hlt.ne'
  cases h with
  | purged hclean => exact hclean
  | kept h => exact hshape h
  | revalued h => exact hshape h
  | filled h => exact hshape h.shape
  | buried h => exact hshape h

section Lookup

theorem Inv.exists_window_of_slot (h : s.Inv c) (hm : c.mode.isPowerOfTwo) (key : K) {i : ℕ}
    (hlow : s.adjustTupleIndex c (c.hasher key).toNat % 16 ≤ i) (hi : i < s.capacity) :
    ∃ n < maxSize, i ∈ s.windows c (c.hasher key) n := by
  obtain ⟨n, hn, hmem⟩ := h.geometry.exists_window h.size_eq
    (h.geometry.coprime_of_powerOfTwo hm) (c.hasher key) hlow hi
  have hmax := h.geometry.isCapacity.le_max
  exact ⟨n, by omega, hmem⟩

theorem Inv.lookup_ends (h : s.Inv c) (hm : c.mode.isPowerOfTwo) (hfix : c.bFix = false)
    (hfuel : maxSize ≤ fuel)
    (hroom : HasKey c s key ∨ s.count + graves c s + 15 < s.capacity) (e : Fault) :
    ¬ LookupFault c s fuel key e := by
  intro he
  have hmin : 2 ^ 16 ≤ maxSize := by decide
  obtain ⟨-, hsmall | hall⟩ := he
  · omega
  rcases hroom with hkey | hroom
  · obtain ⟨i, e, hlive, rfl⟩ := hkey
    obtain ⟨n, hmem, -⟩ := h.chained i e hlive
    obtain ⟨m, hm', hmem'⟩ := h.exists_window_of_slot hm e.key (h.geometry.offset_le hmem)
      (h.size_eq ▸ slots_lt_size hlive)
    exact (hall m (by omega)).2 ((seen_iff hfix).mpr ⟨i, hmem', e, hlive, rfl⟩)
  · set offset := s.adjustTupleIndex c (c.hasher key).toNat % 16 with hoffset
    have hhidden : (Finset.range offset).card ≤ 15 := by
      rw [Finset.card_range]
      omega
    have hfree : (content (Finset.range s.tags.size) (s.slots c)).card +
        tombstones (Finset.range s.tags.size) (s.slots c) + (Finset.range offset).card <
          (Finset.range s.tags.size).card := by
      have hcount : (content (Finset.range s.tags.size) (s.slots c)).card = s.count :=
        h.count_eq.symm
      have hgraves : tombstones (Finset.range s.tags.size) (s.slots c) = graves c s := rfl
      rw [hcount, hgraves, Finset.card_range s.tags.size, h.size_eq]
      omega
    obtain ⟨i, hi, hlow, hempty⟩ := exists_empty hfree
    obtain ⟨m, hm', hmem⟩ := h.exists_window_of_slot hm key
      (not_lt.mp fun hlt => hlow (Finset.mem_range.mpr hlt))
      (h.size_eq ▸ Finset.mem_range.mp hi)
    exact (hall m (by omega)).1 ⟨i, hmem, hempty⟩

end Lookup

section Runs

variable [DecidableEq K]

/-- The removals that a table may still show after the call, given those
before it. `Rehash` rebuilds the table of a container with entries only. -/
def pending (n : ℕ) : Op K V c.type × Result V × ℕ → ℕ
  | (.clear _, _) => 0
  | (.rehash _, _, count) => if count = 0 then n else 0
  | (op, r, _) => n + op.removed r

theorem Call.graves_le {op : Op K V c.type} {out : Result V × ℕ} {n : ℕ} (h : s.Inv c)
    (hcall : Call c s op out t) (hn : graves c s ≤ n) : graves c t ≤ pending n (op, out) := by
  have ht := hcall.inv h
  obtain ⟨r, count⟩ := out
  obtain ⟨fuel, hstep, hcount⟩ := hcall
  have hle := (h.step_touched hstep).graves_le ht
  cases op with
  | clear size =>
    obtain ⟨u, hclear, hout⟩ := Exec.bind_eq_ok.mp hstep
    obtain ⟨-, rfl⟩ : Result.void = r ∧ u = t := by simpa using hout
    obtain ⟨-, -, hclean, -⟩ := (h.clear_ensures size).value hclear
    exact (graves_of_clean hclean ht.valid).le
  | rehash offered =>
    obtain ⟨u, hrehash, hout⟩ := Exec.bind_eq_ok.mp hstep
    obtain ⟨-, rfl⟩ : Result.void = r ∧ u = t := by simpa using hout
    simp only at hcount
    rcases (h.rehash_refilled offered).value hrehash with hclean | ⟨rfl, hzero⟩
    · rw [graves_of_clean hclean ht.valid]
      exact Nat.zero_le _
    · simpa [pending, hcount, hzero] using hn
  | _ => exact hle.trans (Nat.add_le_add_right hn _)

/-- A table that a constructor has made, or that a call has enlarged. -/
inductive FreshTable (c : Template K) : Core K V → Prop
  | constructed {s : Core K V} : Constructed c s → FreshTable c s
  | enlarged {s t : Core K V} {op : Op K V c.type} {out : Result V × ℕ} :
      Reachable c s → Call c s op out t → s.capacity < t.capacity → FreshTable c t

theorem FreshTable.clean (h : FreshTable c s) : s.Inv c ∧ s.tags.Clean := by
  cases h with
  | constructed hstart =>
    obtain ⟨hinv, -, hclean, -⟩ := hstart.start
    exact ⟨hinv, hclean⟩
  | enlarged hs hcall hlt =>
    refine ⟨(hs.call hcall).inv, ?_⟩
    obtain ⟨fuel, hstep, -⟩ := hcall
    exact (hs.inv.step_touched hstep).clean_of_grown hlt

theorem Inv.run_graves_le {trace : List (Op K V c.type × Result V × ℕ)} {n : ℕ} (h : s.Inv c)
    (hn : graves c s ≤ n) (hrun : Run (Call c) s trace t) :
    t.Inv c ∧ graves c t ≤ trace.foldl pending n := by
  induction hrun generalizing n with
  | nil => exact ⟨h, hn⟩
  | cons hcall _ ih => exact ih (hcall.inv h) (hcall.graves_le h hn)

/-- In the power-of-two modes every lookup returns, with the right answer, as
long as the entries and the removals since the table was made, enlarged,
cleared or rehashed leave sixteen slots. -/
theorem lookups_end_while_room (hm : c.mode.isPowerOfTwo) (hfix : c.bFix = false)
    {start : Core K V} {trace : List (Op K V c.type × Result V × ℕ)}
    (hstart : FreshTable c start) (hrun : Run (Call c) start trace s)
    (hroom : s.count + trace.foldl pending 0 + 15 < s.capacity) :
    (∀ key, ∃ fuel r, s.findEntry c fuel key = .ok r ∧ (r.isSome ↔ HasKey c s key)) ∧
    ∀ key (op : Op K V c.type), op.LooksUp key → ∃ out t, Call c s op out t := by
  obtain ⟨hinv, hclean⟩ := hstart.clean
  obtain ⟨h, hgraves⟩ := hinv.run_graves_le (graves_of_clean hclean hinv.valid).le hrun
  have hreturns (key : K) : ∃ r, s.findEntry c maxSize key = .ok r := by
    obtain ⟨r, hr, -⟩ := (h.looked_ensures key).returns
      (h.lookup_ends hm hfix le_rfl (.inr (by omega)))
    exact ⟨r, hr⟩
  constructor
  · intro key
    obtain ⟨r, hr⟩ := hreturns key
    refine ⟨maxSize, r, hr, ?_⟩
    rcases h.findEntry_value hfix hr with ⟨i, e, hlive, hkey, rfl⟩ | ⟨rfl, habsent⟩
    · exact iff_of_true rfl ⟨i, e, hlive, hkey⟩
    · refine iff_of_false (by simp) fun hkey => ?_
      obtain ⟨i, e, hlive, hkey⟩ := hkey
      exact habsent i e hlive hkey
  · intro key op hop
    obtain ⟨r, hr⟩ := hreturns key
    have hends := h.lookupEnds hr
    exact (h.call_returns_iff (h.geometry.coprime_of_powerOfTwo hm) hop).mpr hends

theorem lookups_end_while_room_constantHash : ∃ s : Core ℕ ℕ, s.count = 1 ∧
    ∀ key, ∃ fuel r, s.findEntry (constantHash .map .fast false) fuel key = .ok r ∧
      (r.isSome ↔ HasKey (constantHash .map .fast false) s key) := by
  have hruns : ((construct (constantHash .map .fast false) 100 zeroedMemory) >>= fun s =>
      runOps (constantHash .map .fast false) 100 s
        [.add false 1 10, .add false 2 20, .remove 1] >>= fun r =>
      .ok (r.1.map Prod.snd, r.2.count, r.2.capacity)) =
      .ok ([(.bool true, 1), (.bool true, 2), (.bool true, 1)], 1, 4096) := by
    decide +kernel
  obtain ⟨start, hstart, hruns⟩ := Exec.bind_eq_ok.mp hruns
  obtain ⟨⟨trace, s⟩, hrun, hruns⟩ := Exec.bind_eq_ok.mp hruns
  simp only [Except.ok.injEq, Prod.mk.injEq] at hruns
  obtain ⟨houts, hcount, hcap⟩ := hruns
  obtain ⟨hcalls, hops⟩ := runOps_run hrun
  have htrace := List.zip_of_prod hops houts
  refine ⟨s, hcount, (lookups_end_while_room (.inl rfl) rfl
    (.constructed ⟨100, zeroedMemory, hstart⟩) hcalls ?_).1⟩
  rw [hcount, hcap, htrace]
  decide

end Runs

end Core

end SimdHash
