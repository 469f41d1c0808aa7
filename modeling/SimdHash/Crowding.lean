import SimdHash.PlacedRuns

/-! Keys that agree in the low bits all start their search at one slot, under
the library's own hash functions too. Sixteen of them are found in each window
at most. -/

namespace SimdHash

open OpenAddressing TagVector

namespace Core

variable {K V : Type} {c : Template K} {s : Core K V} {fuel : ℕ}

/-- No window before the `m`-th shows an entry of the key. -/
def Far (c : Template K) (s : Core K V) (m : ℕ) (key : K) : Prop :=
  ∀ n < m, ¬ Holds (s.slots c) (s.windows c (c.hasher key) n) fun e => e.key = key

theorem Geometry.windows_congr (h : s.Geometry c) (hm : c.mode.isPowerOfTwo) {k key : K}
    (hhome : s.home c k = s.home c key) : s.windows c (c.hasher k) = s.windows c (c.hasher key) := by
  have hstart (key : K) : s.adjustTupleIndex c (c.hasher key).toNat = s.home c key :=
    h.windowBase_home hm key
  funext n
  rw [windows, windows, h.windowBase_eq, h.windowBase_eq, hstart, hstart, hhome]

theorem card_window_le (tags : TagArray) (base : ℕ) {S : Finset ℕ}
    (hS : ∀ i ∈ S, i ∈ tags.window base) : S.card ≤ 16 := by
  have hsub : S ⊆ Finset.Ico base (base + 16) := by
    intro i hi
    obtain ⟨hge, hlt, -⟩ := hS i hi
    exact Finset.mem_Ico.mpr ⟨hge, hlt⟩
  simpa using Finset.card_le_card hsub

/-- A lookup of a stored key goes on at least to the first window that shows it. -/
theorem Layout.findEntryWindow_far [DecidableEq K] (h : s.Layout c) {key : K}
    (hkey : HasKey c s key) {m n : ℕ} (hfar : Far c s m key) (hn : n < m) (r : Option ℕ) :
    s.findEntryWindow c fuel key (s.windowBase c (c.hasher key) n) ≠ .ok (some r) := by
  intro hrun
  have hspec := (h.findEntryWindow_ensures fuel key n).value hrun
  cases r with
  | some r => exact hfar n hn hspec.1.holds
  | none =>
    obtain ⟨i, e, hlive, rfl⟩ := hkey
    obtain ⟨n', hmem, hbefore⟩ := h.chained i e hlive
    by_cases hlt : n < n'
    · exact hbefore n hlt hspec.1
    · exact hfar n' (by omega) ⟨i, hmem, e, hlive, rfl⟩

theorem Geometry.card_near_le (h : s.Geometry c) (hm : c.mode.isPowerOfTwo) {keys : Finset K}
    (hcrowd : ∀ k ∈ keys, ∀ key ∈ keys, s.home c k = s.home c key) {m : ℕ}
    (hnear : ∀ key ∈ keys, ¬ Far c s m key) : keys.card ≤ m * 16 := by
  classical
  rcases keys.eq_empty_or_nonempty with rfl | ⟨key₀, hkey₀⟩
  · simp
  have hslot (key : K) (hkey : key ∈ keys) : ∃ i, (∃ n < m, i ∈ s.windows c (c.hasher key₀) n) ∧
      ∃ e, s.slots c i = .live e ∧ e.key = key := by
    have hshown := hnear key hkey
    simp only [Far, not_forall, not_not] at hshown
    obtain ⟨n, hn, i, hmem, e, hlive, heq⟩ := hshown
    rw [h.windows_congr hm (hcrowd key hkey key₀ hkey₀)] at hmem
    exact ⟨i, ⟨n, hn, hmem⟩, e, hlive, heq⟩
  choose! slot hwindow hholds using hslot
  have hinj : Set.InjOn slot keys := by
    intro k hk key hkey heq
    obtain ⟨e, hlive, rfl⟩ := hholds k hk
    obtain ⟨e', hlive', rfl⟩ := hholds key hkey
    rw [heq, hlive', Slot.live.injEq] at hlive
    rw [hlive]
  -- the slots of the first windows that the keys are in
  have hsub : keys.image slot ⊆ (Finset.range m).biUnion fun n =>
      (keys.image slot).filter (· ∈ s.windows c (c.hasher key₀) n) := by
    intro i hi
    obtain ⟨key, hkey, rfl⟩ := Finset.mem_image.mp hi
    obtain ⟨n, hn, hmem⟩ := hwindow key hkey
    exact Finset.mem_biUnion.mpr ⟨n, Finset.mem_range.mpr hn, Finset.mem_filter.mpr ⟨hi, hmem⟩⟩
  calc keys.card = (keys.image slot).card := (Finset.card_image_of_injOn hinj).symm
    _ ≤ _ := Finset.card_le_card hsub
    _ ≤ (Finset.range m).card * 16 := Finset.card_biUnion_le_card_mul _ _ _ fun n _ =>
        card_window_le s.tags _ fun i hi => (Finset.mem_filter.mp hi).2
    _ = m * 16 := by rw [Finset.card_range]

section Claims

variable [DecidableEq K]

/-- Of any stored keys that agree in the low bits, all but sixteen for each
window need more than `m` windows to be found. -/
theorem crowded_keys_far (hm : c.mode.isPowerOfTwo) {type : HashType} {bits : K → UInt64}
    (hhash : c.hasher = Hash.ofBits type bits) (hs : Reachable c s) {keys : Finset K}
    (hkeys : ∀ key ∈ keys, HasKey c s key)
    (hcrowd : ∀ k ∈ keys, ∀ key ∈ keys,
      (bits k).toNat % s.capacity = (bits key).toNat % s.capacity) (m : ℕ) :
    ∃ far ⊆ keys, keys.card ≤ far.card + 16 * m ∧ ∀ key ∈ far, ∀ n < m, ∀ fuel r,
      s.findEntryWindow c fuel key (s.windowBase c (c.hasher key) n) ≠ .ok (some r) := by
  classical
  have h : s.Inv c := hs.inv
  have hhome : ∀ k ∈ keys, ∀ key ∈ keys, s.home c k = s.home c key := fun k hk key hkey =>
    (home_eq_iff h.geometry hm hhash k key).mpr (hcrowd k hk key hkey)
  refine ⟨keys.filter (Far c s m), Finset.filter_subset _ _, ?_, ?_⟩
  · have hnear : (keys.filter fun key => ¬ Far c s m key).card ≤ m * 16 := by
      refine h.geometry.card_near_le hm ?_ fun key hkey => (Finset.mem_filter.mp hkey).2
      intro k hk key hkey
      exact hhome k (Finset.mem_filter.mp hk).1 key (Finset.mem_filter.mp hkey).1
    have hsplit := Finset.card_filter_add_card_filter_not (s := keys) (Far c s m)
    omega
  · intro key hkey n hn fuel r
    obtain ⟨hmem, hfar⟩ := Finset.mem_filter.mp hkey
    exact h.findEntryWindow_far (hkeys key hmem) hfar hn r

/-- Seventeen numbers that differ in the high halves only: one of them is not in
the first window. -/
theorem crowded_keys_far_high : ∃ s : Core ℕ ℕ, Reachable (numbers .set .fast) s ∧ ∃ key,
    HasKey (numbers .set .fast) s key ∧ ∀ fuel r,
      s.findEntryWindow (numbers .set .fast) fuel key
        (s.windowBase (numbers .set .fast) ((numbers .set .fast).hasher key) 0) ≠ .ok (some r) := by
  have hrun : (after (numbers .set .fast) 100 zeroedMemory
      ((List.range 17).map fun j => .add true (j * 2 ^ 32) 0) >>= fun s =>
        .ok ((List.range 17).all fun j =>
          ((s.findEntry (numbers .set .fast) 100 (j * 2 ^ 32)).toOption.join).isSome)) =
      .ok true := by
    decide +kernel
  obtain ⟨s, hafter, hfound⟩ := Exec.bind_eq_ok.mp hrun
  have hs : Reachable (numbers .set .fast) s := reachable_of_after hafter
  have hkeys : ∀ key ∈ (Finset.range 17).image fun j => j * 2 ^ 32,
      HasKey (numbers .set .fast) s key := by
    intro key hkey
    obtain ⟨j, hj, rfl⟩ := Finset.mem_image.mp hkey
    have hj' : ((s.findEntry (numbers .set .fast) 100 (j * 2 ^ 32)).toOption.join).isSome :=
      List.all_eq_true.mp (Except.ok.inj hfound) j (List.mem_range.mpr (Finset.mem_range.mp hj))
    cases hlook : s.findEntry (numbers .set .fast) 100 (j * 2 ^ 32) with
    | error e =>
      rw [hlook] at hj'
      cases hj'
    | ok r =>
      rcases hs.inv.findEntry_value rfl hlook with ⟨i, e, hlive, hkey, -⟩ | ⟨rfl, -⟩
      · exact ⟨i, e, hlive, hkey⟩
      · rw [hlook] at hj'
        cases hj'
  have hhash : (numbers .set .fast).hasher = Hash.ofBits .absl UInt64.ofNat := rfl
  have hzero : ∀ key ∈ (Finset.range 17).image fun j => j * 2 ^ 32,
      (UInt64.ofNat key).toNat % s.capacity = 0 := by
    intro key hkey
    obtain ⟨j, -, rfl⟩ := Finset.mem_image.mp hkey
    obtain ⟨m, -, hm, hcap⟩ := hs.inv.geometry.exists_log (.inl rfl)
    have hdvd : s.capacity ∣ 2 ^ 32 := hcap ▸ Nat.pow_dvd_pow 2 (by omega)
    rw [UInt64.toNat_ofNat']
    refine Nat.mod_eq_zero_of_dvd (hdvd.trans ?_)
    exact (Nat.dvd_mod_iff (Nat.pow_dvd_pow 2 (by decide))).mpr (dvd_mul_left _ _)
  have hlow : ∀ k ∈ (Finset.range 17).image (fun j => j * 2 ^ 32), ∀ key ∈ (Finset.range 17).image
      (fun j => j * 2 ^ 32), (UInt64.ofNat k).toNat % s.capacity =
        (UInt64.ofNat key).toNat % s.capacity :=
    fun k hk key hkey => (hzero k hk).trans (hzero key hkey).symm
  obtain ⟨far, hsub, hcard, hfar⟩ := crowded_keys_far (.inl rfl) hhash hs hkeys hlow 1
  have hcount : ((Finset.range 17).image fun j => j * 2 ^ 32).card = 17 := by decide
  obtain ⟨key, hkey⟩ : far.Nonempty := Finset.card_pos.mp (by omega)
  exact ⟨s, hs, key, hkeys key (hsub hkey), hfar key hkey 0 one_pos⟩

end Claims

end Core

end SimdHash
