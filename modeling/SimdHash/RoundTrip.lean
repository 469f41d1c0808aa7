import SimdHash.DataSetFile

/-! The files that `main` has generated are read back as the numbers that were
accepted, although they are written and read in different chunks. -/

namespace SimdHash

namespace DataSet

open FixedWidth

section Requested

/-- The header of the file that `main` generates. -/
def requestedHeader (arg : Option ℤ) : UInt64 := requestedSize arg + 1024 * 1024 * 2

theorem requestedSize_mem (arg : Option ℤ) :
    ∃ size ∈ vectorDataSetSize, requestedSize arg = UInt64.ofNat (size * 1024 * 1024) := by
  rw [requestedSize]
  cases hfind : vectorDataSetSize.find? fun size : ℕ => (size : ℤ) = arg.getD 128 with
  | none => exact ⟨128, by decide, rfl⟩
  | some size => exact ⟨size, List.mem_of_find?_eq_some hfind, rfl⟩

theorem requestedHeader_toNat (arg : Option ℤ) : ∃ size ∈ vectorDataSetSize,
    (requestedHeader arg).toNat = (size + 2) * 2 ^ 20 := by
  obtain ⟨size, hsize, heq⟩ := requestedSize_mem arg
  refine ⟨size, hsize, ?_⟩
  rw [requestedHeader, heq]
  simp only [vectorDataSetSize, List.mem_cons, List.not_mem_nil, or_false] at hsize
  rcases hsize with rfl | rfl | rfl | rfl
  · rfl
  · rfl
  · rfl
  · rfl

theorem requestedHeader_accepted (arg : Option ℤ) : HeaderAccepted (requestedHeader arg) := by
  obtain ⟨size, hsize, htoNat⟩ := requestedHeader_toNat arg
  exact headerAccepted_iff.mpr ⟨size, hsize, by omega, by omega, by omega⟩

theorem bufferSize_dvd_requestedHeader (arg : Option ℤ) :
    bufferSize ∣ (requestedHeader arg).toNat := by
  obtain ⟨size, -, htoNat⟩ := requestedHeader_toNat arg
  rw [htoNat, bufferSize]
  omega

end Requested

section Generated

variable {J : Type} {judy : Judy1 J} {words : J → Set UInt64} {distribution : ℕ → UInt64}
  {header : UInt64}

theorem Drawn.length_draw_le (d : Drawn) (rnd : UInt64) :
    (d.draw rnd).accepted.length ≤ d.accepted.length + 1 := by
  rcases d.draw_accepted rnd with heq | heq
  · rw [heq]
    omega
  · rw [heq, List.length_append, List.length_singleton]

theorem Follows.lt_iff {d : Drawn} {g : Generator J} (h : Follows words header d g) :
    g.count.toUInt64 < header ↔ d.accepted.length < header.toNat := by
  rw [UInt64.lt_iff_toNat_lt, UInt32.toNat_toUInt64, h.count]

/-- The generator stops at the first draw that makes up the size. -/
theorem Judy1.IsSet.loop_ensures (hjudy : judy.IsSet words) (distribution : ℕ → UInt64)
    (header : UInt64) (fuel : ℕ) :
    Exec.Ensures (Exec.loop (generateStep judy distribution header) fuel
        (Generator.start judy header))
      (fun g => ∃ n < fuel, (drawn distribution n).accepted.length = header.toNat ∧
        Follows words header (drawn distribution n) g)
      (fun e => e = .timeout ∧
        ∀ n < fuel, (drawn distribution n).accepted.length < header.toNat) := by
  refine Exec.ensures_loop (I := fun n g => g.draws = n ∧
    Follows words header (drawn distribution n) g ∧
      ∀ m < n, (drawn distribution m).accepted.length < header.toNat) ?_ ?_ ?_
  · exact ⟨rfl, hjudy.start distribution header, by simp⟩
  · intro n g hn hI
    obtain ⟨hdraws, hfollows, hbefore⟩ := hI
    by_cases hlt : g.count.toUInt64 < header
    · obtain ⟨g', hstep, hfollows', hdraws'⟩ := hfollows.step hjudy hlt
      rw [hstep]
      refine ⟨by rw [hdraws', hdraws], hdraws ▸ hfollows', ?_⟩
      intro m hm
      rcases Nat.lt_succ_iff_lt_or_eq.mp hm with hold | rfl
      · exact hbefore m hold
      · exact hfollows.lt_iff.mp hlt
    · rw [generateStep, if_neg hlt]
      have hle := not_lt.mp (hfollows.lt_iff.not.mp hlt)
      refine ⟨n, hn, le_antisymm ?_ hle, hfollows⟩
      cases n with
      | zero => simp [drawn]
      | succ m =>
        have hgrow := (drawn distribution m).length_draw_le (distribution m)
        have hprevious := hbefore m (Nat.lt_succ_self m)
        rw [drawn]
        omega
  · intro g hI
    exact ⟨rfl, hI.2.2⟩

theorem Generator.flush_outFile (g : Generator J) :
    (if g.buffer.length > 0 then g.write else g).outFile =
      g.outFile ++ word.encodeAll g.buffer := by
  by_cases hbuffer : g.buffer.length > 0
  · rw [if_pos hbuffer, write]
  · have hnil : g.buffer = [] := List.length_eq_zero_iff.mp (by omega)
    rw [if_neg hbuffer, hnil, encodeAll_nil, List.append_nil]

theorem Judy1.IsSet.generateDataSet_ensures (hjudy : judy.IsSet words)
    (distribution : ℕ → UInt64) (arg : Option ℤ) (fuel : ℕ) :
    Exec.Ensures (generateDataSet judy distribution fuel true (requestedSize arg))
      (fun r => ∃ n < fuel,
        (drawn distribution n).accepted.length = (requestedHeader arg).toNat ∧
        r = .ok (word.encodeAll (requestedHeader arg :: (drawn distribution n).accepted)))
      (fun e => e = .timeout ∧ ∀ n < fuel,
        (drawn distribution n).accepted.length < (requestedHeader arg).toNat) := by
  rw [generateDataSet, if_neg (not_not.mpr rfl), ← requestedHeader]
  refine (hjudy.loop_ensures distribution (requestedHeader arg) fuel).bind ?_
  intro g hg
  obtain ⟨n, hn, hlength, hfollows⟩ := hg
  refine ⟨n, hn, hlength, ?_⟩
  rw [Generator.flush_outFile, hfollows.written]

theorem getDataSet_encodeAll (hheader : HeaderAccepted header) (hdvd : bufferSize ∣ header.toNat)
    {accepted : List UInt64} (hlength : accepted.length = header.toNat) {fuel : ℕ}
    (hfuel : header.toNat / bufferSize < fuel) (shuffle : List UInt64 → List UInt64)
    (initial : UInt64) (dataSet : Block UInt64) (bShuffle : Bool) :
    getDataSet fuel shuffle (some (word.encodeAll (header :: accepted))) initial dataSet 0
      bShuffle = .ok (.ok (if bShuffle then shuffle accepted else accepted)) := by
  have hload := load_ensures hheader (word.encodeAll accepted) dataSet hfuel
  rw [length_encodeAll, hlength] at hload
  rw [encodeAll_cons, getDataSet_eq hheader]
  cases hloop : Exec.loop (loadStep header) fuel
    (Loading.start header (word.encodeAll accepted) dataSet) with
  | error e => exact absurd hdvd (hload.fault hloop).2.1
  | ok r =>
    have hvalue := hload.value hloop
    cases r with
    | error message => exact absurd (hvalue.2.2 hdvd) (lt_irrefl _)
    | ok loaded =>
      have hlist : toList loaded = accepted := by
        rw [hvalue.2.2, ← hlength, map_valueAt_encodeAll]
      rw [← hlist]
      rfl

end Generated

section Claims

/-- Numbers whose halves are all different. -/
def consecutive (k : ℕ) : UInt64 := UInt64.ofNat (2 * k + (2 * k + 1) * 2 ^ 32)

theorem consecutive_low {k : ℕ} (hk : k < 2 ^ 31) : (consecutive k).toUInt32.toNat = 2 * k := by
  rw [UInt64.toNat_toUInt32, consecutive, UInt64.toNat_ofNat']
  omega

theorem consecutive_high {k : ℕ} (hk : k < 2 ^ 31) :
    (consecutive k >>> 32).toUInt32.toNat = 2 * k + 1 := by
  have hlt : 2 * k + (2 * k + 1) * 2 ^ 32 < 2 ^ 64 := by omega
  rw [UInt64.toNat_toUInt32, high_toNat, consecutive, UInt64.toNat_ofNat_of_lt' hlt,
    Nat.add_mul_div_right _ _ (by decide), Nat.div_eq_of_lt (by omega), zero_add,
    Nat.mod_eq_of_lt (by omega)]

theorem drawn_consecutive {n : ℕ} (hn : n ≤ 2 ^ 31) : (drawn consecutive n).accepted.length = n ∧
    ∀ half ∈ (drawn consecutive n).seen, half.toNat < 2 * n := by
  induction n with
  | zero => exact ⟨rfl, by simp [drawn]⟩
  | succ n ih =>
    obtain ⟨hlength, hseen⟩ := ih (by omega)
    have hlow := consecutive_low (k := n) (by omega)
    have hhigh := consecutive_high (k := n) (by omega)
    have hnew : (consecutive n).toUInt32 ∉ (drawn consecutive n).seen := by
      intro hmem
      have hlt := hseen _ hmem
      omega
    have hnew' : (consecutive n >>> 32).toUInt32 ∉
        insert (consecutive n).toUInt32 (drawn consecutive n).seen := by
      intro hmem
      rcases Finset.mem_insert.mp hmem with heq | hmem
      · rw [heq] at hhigh
        omega
      · have hlt := hseen _ hmem
        omega
    rw [drawn, Drawn.draw, dif_neg hnew, dif_neg hnew']
    refine ⟨by rw [List.length_append, hlength, List.length_singleton], ?_⟩
    intro half hhalf
    rcases Finset.mem_insert.mp hhalf with rfl | hhalf
    · omega
    · rcases Finset.mem_insert.mp hhalf with rfl | hhalf
      · omega
      · have hlt := hseen half hhalf
        omega

/-- `GenerateDataSet` finishes exactly if enough of the numbers drawn can be
accepted. What it then writes is the header and the numbers accepted, and that
is read back as these numbers. -/
theorem data_set_round_trip {J : Type} {judy : Judy1 J} {words : J → Set UInt64}
    (hjudy : judy.IsSet words) (distribution : ℕ → UInt64) (arg : Option ℤ) :
    ((∃ fuel file,
        generateDataSet judy distribution fuel true (requestedSize arg) = .ok (.ok file)) ↔
      ∃ n, (requestedHeader arg).toNat ≤ (drawn distribution n).accepted.length) ∧
    ∀ fuel file,
      generateDataSet judy distribution fuel true (requestedSize arg) = .ok (.ok file) →
      ∃ n, (drawn distribution n).accepted.length = (requestedHeader arg).toNat ∧
        file = word.encodeAll (requestedHeader arg :: (drawn distribution n).accepted) ∧
        ∀ fuel' > (requestedHeader arg).toNat / bufferSize, ∀ shuffle initial dataSet,
          getDataSet fuel' shuffle (some file) initial dataSet 0 false =
            .ok (.ok (drawn distribution n).accepted) := by
  refine ⟨⟨?_, ?_⟩, ?_⟩
  · intro h
    obtain ⟨fuel, file, hfile⟩ := h
    obtain ⟨n, -, hlength, -⟩ :=
      (hjudy.generateDataSet_ensures distribution arg fuel).value hfile
    exact ⟨n, hlength.ge⟩
  · intro h
    obtain ⟨n, hn⟩ := h
    obtain ⟨fuel, hfuel⟩ := exists_gt n
    have hrun := hjudy.generateDataSet_ensures distribution arg fuel
    cases hresult : generateDataSet judy distribution fuel true (requestedSize arg) with
    | error e => exact absurd hn (not_le.mpr ((hrun.fault hresult).2 n hfuel))
    | ok r =>
      obtain ⟨m, -, -, hr⟩ := hrun.value hresult
      exact ⟨fuel, _, hresult.trans (congrArg Except.ok hr)⟩
  · intro fuel file hfile
    obtain ⟨n, -, hlength, hr⟩ :=
      (hjudy.generateDataSet_ensures distribution arg fuel).value hfile
    rw [Except.ok.injEq] at hr
    refine ⟨n, hlength, hr, ?_⟩
    intro fuel' hfuel' shuffle initial dataSet
    rw [hr]
    exact getDataSet_encodeAll (requestedHeader_accepted arg)
      (bufferSize_dvd_requestedHeader arg) hlength hfuel' shuffle initial dataSet false

theorem data_set_round_trip_consecutive : ∃ fuel file, ∃ accepted : List UInt64,
    generateDataSet listed consecutive fuel true (requestedSize (some 32)) = .ok (.ok file) ∧
    accepted.length = 34 * 1024 * 1024 ∧
    ∀ fuel' > 2176, getDataSet fuel' id (some file) 0 ⟨0, fun _ => 0⟩ 0 false =
      .ok (.ok accepted) := by
  have hheader : (requestedHeader (some 32)).toNat = 34 * 1024 * 1024 := rfl
  obtain ⟨hfinishes, hread⟩ := data_set_round_trip listed_isSet consecutive (some 32)
  obtain ⟨fuel, file, hfile⟩ := hfinishes.mpr
    ⟨34 * 1024 * 1024, by rw [hheader, (drawn_consecutive (by omega)).1]⟩
  obtain ⟨n, hlength, -, hget⟩ := hread fuel file hfile
  refine ⟨fuel, file, _, hfile, hlength.trans hheader, ?_⟩
  intro fuel' hfuel'
  refine hget fuel' ?_ id 0 ⟨0, fun _ => 0⟩
  rw [hheader, bufferSize]
  omega

end Claims

end DataSet

end SimdHash
