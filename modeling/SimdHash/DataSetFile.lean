import SimdHash.KeyHalves

/-! What `GetDataSet` makes of a file: of every file whose header it accepts,
and of the files that `GenerateDataSet` writes. -/

namespace SimdHash

namespace DataSet

open FixedWidth

section Header

variable {header : UInt64}

/-- The accepted headers are whole numbers of 1024 words, in the 1024 * 1024
words from each of the sizes on. -/
theorem headerAccepted_iff : HeaderAccepted header ↔ ∃ size ∈ vectorDataSetSize,
    (size + 2) * 2 ^ 20 ≤ header.toNat ∧ header.toNat < (size + 3) * 2 ^ 20 ∧
    1024 ∣ header.toNat := by
  have hsub : (header - 1024 * 1024 * 2).toNat = (2 ^ 64 - 2 ^ 21 + header.toNat) % 2 ^ 64 := by
    rw [UInt64.toNat_sub]
    rfl
  have hsub' : (header - 1024 * 1024).toNat = (2 ^ 64 - 2 ^ 20 + header.toNat) % 2 ^ 64 := by
    rw [UInt64.toNat_sub]
    rfl
  have hdiv : ((header - 1024 * 1024 * 2) / 1024 / 1024).toNat =
      (2 ^ 64 - 2 ^ 21 + header.toNat) % 2 ^ 64 / 1024 / 1024 := by
    rw [UInt64.toNat_div, UInt64.toNat_div, hsub]
    rfl
  have hmod : (header - 1024 * 1024) % 1024 = 0 ↔
      (2 ^ 64 - 2 ^ 20 + header.toNat) % 2 ^ 64 % 1024 = 0 := by
    rw [← UInt64.toNat_inj, UInt64.toNat_mod, hsub']
    rfl
  have hlt := header.toNat_lt
  rw [HeaderAccepted, hdiv, hmod]
  simp only [vectorDataSetSize, List.mem_cons, List.not_mem_nil, or_false, exists_eq_or_imp,
    exists_eq_left]
  omega

theorem HeaderAccepted.lt (h : HeaderAccepted header) : header.toNat < 2 ^ 29 := by
  obtain ⟨size, hsize, -, hlt, -⟩ := headerAccepted_iff.mp h
  have hle : size ≤ 256 := by
    simp only [vectorDataSetSize, List.mem_cons, List.not_mem_nil, or_false] at hsize
    omega
  omega

end Header

section Loading

variable {header : UInt64} {data : List UInt8} {dataSet : Block UInt64} {l l' : Loading} {n : ℕ}

/-- The state in which the loop is entered, with `data` after the header. -/
def Loading.start (header : UInt64) (data : List UInt8) (dataSet : Block UInt64) : Loading where
  i := 0
  inFile := ⟨data, true⟩
  dataSet := resize dataSet header.toNat

/-- The state after `n` full chunks. -/
structure LoadedTo (header : UInt64) (data : List UInt8) (n : ℕ) (l : Loading) : Prop where
  i : l.i.toNat = bufferSize * n
  inFile : l.inFile = ⟨data.drop (word.width * (bufferSize * n)), true⟩
  size : l.dataSet.size = header.toNat
  inside : bufferSize * n ≤ header.toNat
  read : word.width * (bufferSize * n) ≤ data.length
  cells : ∀ k < bufferSize * n, l.dataSet.cell k = word.valueAt data k

theorem loadedTo_start : LoadedTo header data 0 (Loading.start header data dataSet) where
  i := rfl
  inFile := rfl
  size := rfl
  inside := by simp
  read := by simp
  cells k hk := by simp at hk

theorem LoadedTo.lt_iff (h : LoadedTo header data n l) :
    l.i < header ↔ bufferSize * n < header.toNat := by
  rw [UInt64.lt_iff_toNat_lt, h.i]

theorem word_width : word.width = 8 := rfl

theorem bufferSize_eq : bufferSize = 16384 := rfl

theorem chunk_succ (n : ℕ) : word.width * (bufferSize * (n + 1)) =
    word.width * (bufferSize * n) + word.width * bufferSize := by ring

theorem LoadedTo.read_eq (h : LoadedTo header data n l) :
    l.inFile.read (bufferSize * word.width) =
      ((data.drop (word.width * (bufferSize * n))).take (word.width * bufferSize),
        ⟨data.drop (word.width * (bufferSize * (n + 1))),
          decide (word.width * (bufferSize * (n + 1)) ≤ data.length)⟩) := by
  have hread := h.read
  have hstep := chunk_succ n
  rw [InFile.read, h.inFile, if_pos rfl, List.drop_drop, List.length_drop, hstep,
    mul_comm bufferSize word.width]
  simp only [Prod.mk.injEq, InFile.mk.injEq, decide_eq_decide, true_and]
  omega

def Loading.next (data : List UInt8) (n : ℕ) (l : Loading) : Loading where
  i := l.i + UInt64.ofNat bufferSize
  inFile := ⟨data.drop (word.width * (bufferSize * (n + 1))), true⟩
  dataSet := store l.dataSet l.i.toNat
    ((data.drop (word.width * (bufferSize * n))).take (word.width * bufferSize))

/-- A round reads past the vector, or finds the file too short, or reads a chunk. -/
theorem LoadedTo.round (h : LoadedTo header data n l) (hlt : bufferSize * n < header.toNat) :
    loadStep header l =
      if word.width * header.toNat < word.width * (bufferSize * (n + 1)) ∧
          word.width * header.toNat < data.length then .error .outOfBounds
      else if data.length < word.width * (bufferSize * (n + 1)) then .ok (.inr (.error corrupted))
      else .ok (.inl (l.next data n)) := by
  have hread := h.read
  have hstep := chunk_succ n
  have hpast : bufferSize * n * word.width + min (word.width * bufferSize)
      (data.length - word.width * (bufferSize * n)) > header.toNat * word.width ↔
        word.width * header.toNat < word.width * (bufferSize * (n + 1)) ∧
          word.width * header.toNat < data.length := by
    rw [mul_comm (bufferSize * n), mul_comm header.toNat, hstep]
    omega
  simp only [loadStep, if_pos (h.lt_iff.mpr hlt), h.read_eq, List.length_take, List.length_drop,
    h.i, h.size, hpast, decide_eq_true_eq, not_le]
  split_ifs with hover hshort
  · rfl
  · rfl
  · have hgood : decide (word.width * (bufferSize * (n + 1)) ≤ data.length) = true :=
      decide_eq_true (not_lt.mp hshort)
    rw [hgood, Loading.next, h.i]

theorem LoadedTo.next (h : LoadedTo header data n l) (hheader : HeaderAccepted header)
    (hinside : bufferSize * (n + 1) ≤ header.toNat)
    (hread : word.width * (bufferSize * (n + 1)) ≤ data.length) :
    LoadedTo header data (n + 1) (l.next data n) where
  i := by
    have hlt := hheader.lt
    rw [Loading.next, UInt64.toNat_add, h.i, show (UInt64.ofNat bufferSize).toNat = bufferSize from rfl]
    rw [Nat.mod_eq_of_lt (by rw [Nat.mul_succ] at hinside; omega), Nat.mul_succ]
  inFile := rfl
  size := h.size
  inside := hinside
  read := hread
  cells k hk := by
    have hstep := chunk_succ n
    have hlength : ((data.drop (word.width * (bufferSize * n))).take
        (word.width * bufferSize)).length / word.width = bufferSize := by
      rw [List.length_take, List.length_drop, min_eq_left (by omega)]
      exact Nat.mul_div_cancel_left _ (by decide)
    simp only [Loading.next, store, hlength, h.i]
    rw [Nat.mul_succ] at hk
    by_cases hold : k < bufferSize * n
    · rw [if_neg (by omega), h.cells k hold]
    · rw [if_pos (by omega), word.valueAt_take (by omega), word.valueAt_drop,
        Nat.add_sub_cancel' (not_lt.mp hold)]

theorem LoadedTo.toList_eq (h : LoadedTo header data n l) (hend : ¬ bufferSize * n < header.toNat) :
    toList l.dataSet = (List.range header.toNat).map (word.valueAt data) := by
  rw [toList, h.size]
  refine List.map_congr_left fun k hk => h.cells k ?_
  have hlt := List.mem_range.mp hk
  omega

/-- What the loop makes of the data after an accepted header. It needs a round for each chunk. -/
theorem load_ensures (hheader : HeaderAccepted header) (data : List UInt8)
    (dataSet : Block UInt64) {fuel : ℕ} (hfuel : header.toNat / bufferSize < fuel) :
    Exec.Ensures (Exec.loop (loadStep header) fuel (Loading.start header data dataSet))
      (fun r => match r with
        | .ok loaded => bufferSize ∣ header.toNat ∧ word.width * header.toNat ≤ data.length ∧
            toList loaded = (List.range header.toNat).map (word.valueAt data)
        | .error message => message = corrupted ∧ data.length ≤ word.width * header.toNat ∧
            (bufferSize ∣ header.toNat → data.length < word.width * header.toNat))
      (fun e => e = .outOfBounds ∧ ¬ bufferSize ∣ header.toNat ∧
        word.width * header.toNat < data.length) := by
  refine Exec.ensures_loop (I := fun n l => LoadedTo header data n l) loadedTo_start ?_ ?_
  · intro n l _ h
    have hread := h.read
    have hinside := h.inside
    by_cases hlt : bufferSize * n < header.toNat
    · rw [h.round hlt]
      split_ifs with hover hshort
      · refine ⟨rfl, ?_, hover.2⟩
        rw [word_width, bufferSize_eq] at hover
        rw [bufferSize_eq] at hlt ⊢
        omega
      · refine ⟨rfl, ?_, ?_⟩
        · rw [word_width, bufferSize_eq] at hover hshort
          rw [word_width]
          omega
        · intro hdvd
          rw [bufferSize_eq] at hlt hdvd
          rw [word_width, bufferSize_eq] at hshort
          rw [word_width]
          omega
      · refine h.next hheader ?_ (not_lt.mp hshort)
        rw [word_width, bufferSize_eq] at hover hshort
        rw [bufferSize_eq]
        omega
    · have hend : loadStep header l = .ok (.inr (.ok l.dataSet)) := by
        rw [loadStep, if_neg (h.lt_iff.not.mpr hlt)]
      have heq : header.toNat = bufferSize * n := le_antisymm (not_lt.mp hlt) hinside
      rw [hend]
      exact ⟨⟨n, heq⟩, heq ▸ hread, h.toList_eq hlt⟩
  · intro l h
    have hinside := h.inside
    rw [bufferSize_eq] at hinside hfuel
    omega

theorem getDataSet_eq (hheader : HeaderAccepted header) (fuel : ℕ)
    (shuffle : List UInt64 → List UInt64) (initial : UInt64) (bShuffle : Bool) :
    getDataSet fuel shuffle (some (word.encode header ++ data)) initial dataSet 0 bShuffle =
      (Exec.loop (loadStep header) fuel (Loading.start header data dataSet) >>= fun loaded =>
        .ok (loaded.map fun dataSet =>
          if bShuffle then shuffle (toList dataSet) else toList dataSet)) := by
  have hlength : (word.encode header).length = word.width := word.length_encode header
  have hread : InFile.read ⟨word.encode header ++ data, true⟩ word.width =
      (word.encode header, ⟨data, true⟩) := by
    simp [InFile.read, hlength, List.take_left', List.drop_left']
  have hdecode : word.decode (word.encode header ++
      (word.encode initial).drop (word.encode header).length) = header := by
    rw [hlength, List.drop_of_length_le (word.length_encode initial).le, List.append_nil,
      word.decode_encode]
  simp only [getDataSet, hread, hdecode, not_not.mpr hheader, if_false, lt_irrefl]
  rfl

end Loading

section Chunks

variable {header : UInt64} {data : List UInt8} {dataSet : Block UInt64} {l : Loading}

theorem rounds_loadedTo (hheader : HeaderAccepted header)
    (hl : Exec.Rounds (loadStep header) (Loading.start header data dataSet) l) :
    ∃ n, LoadedTo header data n l := by
  induction hl with
  | refl => exact ⟨0, loadedTo_start⟩
  | @tail l l' _ hstep ih =>
    obtain ⟨n, h⟩ := ih
    by_cases hlt : bufferSize * n < header.toNat
    · rw [h.round hlt] at hstep
      split_ifs at hstep with hover hshort
      · rw [Except.ok.injEq] at hstep
        cases hstep
      · rw [Except.ok.injEq, Sum.inl.injEq] at hstep
        rw [← hstep]
        refine ⟨n + 1, h.next hheader ?_ (not_lt.mp hshort)⟩
        by_contra hpast
        exact hover ⟨Nat.mul_lt_mul_of_pos_left (not_le.mp hpast) (by decide),
          (Nat.mul_lt_mul_of_pos_left (not_le.mp hpast) (by decide)).trans_le (not_lt.mp hshort)⟩
    · rw [loadStep, if_neg (h.lt_iff.not.mpr hlt)] at hstep
      cases hstep

theorem exists_loadedTo (hheader : HeaderAccepted header) (data : List UInt8)
    (dataSet : Block UInt64) {n : ℕ} (hinside : bufferSize * n ≤ header.toNat)
    (hread : word.width * (bufferSize * n) ≤ data.length) :
    ∃ l, Exec.Rounds (loadStep header) (Loading.start header data dataSet) l ∧
      LoadedTo header data n l := by
  induction n with
  | zero => exact ⟨_, .refl, loadedTo_start⟩
  | succ n ih =>
    obtain ⟨l, hl, h⟩ := ih (by rw [bufferSize_eq] at hinside ⊢; omega)
      (by rw [word_width, bufferSize_eq] at hread ⊢; omega)
    have hlt : bufferSize * n < header.toNat := by
      rw [bufferSize_eq] at hinside ⊢
      omega
    have hstep : loadStep header l = .ok (.inl (l.next data n)) := by
      rw [h.round hlt, if_neg, if_neg (not_lt.mpr hread)]
      intro hover
      exact absurd (Nat.mul_le_mul_left word.width hinside) (not_le.mpr hover.1)
    exact ⟨_, hl.tail hstep, h.next hheader hinside hread⟩

/-- The chunks that the loop requests are inside the vector exactly if its size
is a whole number of chunks, or the file ends before the whole chunks do. -/
theorem chunks_inside_iff (hheader : HeaderAccepted header) (data : List UInt8)
    (dataSet : Block UInt64) :
    (∀ l, Exec.Rounds (loadStep header) (Loading.start header data dataSet) l → l.i < header →
      l.i.toNat + bufferSize ≤ header.toNat) ↔
    bufferSize ∣ header.toNat ∨
      data.length < word.width * (bufferSize * (header.toNat / bufferSize)) := by
  constructor
  · intro hinside
    by_contra hnot
    rw [not_or, not_lt] at hnot
    obtain ⟨hdvd, hread⟩ := hnot
    obtain ⟨l, hl, h⟩ := exists_loadedTo hheader data dataSet
      (Nat.mul_div_le header.toNat bufferSize) hread
    have hlt : bufferSize * (header.toNat / bufferSize) < header.toNat := by
      rw [bufferSize_eq] at hdvd ⊢
      omega
    have hchunk := hinside l hl (h.lt_iff.mpr hlt)
    rw [h.i, bufferSize_eq] at hchunk
    omega
  · intro hcond l hl hlt
    obtain ⟨n, h⟩ := rounds_loadedTo hheader hl
    have hread := h.read
    rw [h.lt_iff] at hlt
    rw [h.i]
    rw [bufferSize_eq] at hlt hcond hread ⊢
    rw [word_width] at hcond hread
    omega

/-- 34 * 1024 * 1024 words, which the file has, are whole chunks. -/
theorem chunks_inside_whole : HeaderAccepted 35651584 ∧ ∀ l,
    Exec.Rounds (loadStep 35651584)
      (Loading.start 35651584 (List.replicate (8 * 35651584) 0) ⟨0, fun _ => 0⟩) l →
    l.i < 35651584 → l.i.toNat + bufferSize ≤ (35651584 : UInt64).toNat := by
  have hheader : HeaderAccepted 35651584 := by decide
  have hwhole : bufferSize ∣ (35651584 : UInt64).toNat := by decide
  exact ⟨hheader, (chunks_inside_iff hheader _ ⟨0, fun _ => 0⟩).mpr (.inl hwhole)⟩

/-- 1024 words more, and the file goes on: the last chunk is read past the vector. -/
theorem last_chunk_outside :
    HeaderAccepted 35652608 ∧
    (∃ l, Exec.Rounds (loadStep 35652608)
      (Loading.start 35652608 (List.replicate (8 * (16384 * 2177)) 0) ⟨0, fun _ => 0⟩) l ∧
        l.i < 35652608 ∧ ¬ l.i.toNat + bufferSize ≤ (35652608 : UInt64).toNat) ∧
    ∀ fuel > 2176, getDataSet fuel id
      (some (word.encode 35652608 ++ List.replicate (8 * (16384 * 2177)) 0)) 0 ⟨0, fun _ => 0⟩ 0
        false = .error .outOfBounds := by
  have hheader : HeaderAccepted 35652608 := by decide
  have htoNat : (35652608 : UInt64).toNat = 35652608 := rfl
  refine ⟨hheader, ?_, ?_⟩
  · obtain ⟨l, hl, h⟩ := exists_loadedTo (n := 2176) hheader
      (List.replicate (8 * (16384 * 2177)) 0) ⟨0, fun _ => 0⟩ (by rw [bufferSize_eq, htoNat]; omega)
      (by rw [word_width, bufferSize_eq, List.length_replicate]; omega)
    refine ⟨l, hl, h.lt_iff.mpr ?_, ?_⟩
    · rw [bufferSize_eq, htoNat]
      omega
    · rw [h.i, bufferSize_eq, htoNat]
      omega
  · intro fuel hfuel
    have hrounds : (35652608 : UInt64).toNat / bufferSize < fuel := by
      rw [bufferSize_eq, htoNat]
      omega
    have hload := load_ensures hheader (List.replicate (8 * (16384 * 2177)) 0) ⟨0, fun _ => 0⟩
      hrounds
    rw [getDataSet_eq hheader]
    cases hloop : Exec.loop (loadStep 35652608) fuel
      (Loading.start 35652608 (List.replicate (8 * (16384 * 2177)) 0) ⟨0, fun _ => 0⟩) with
    | error e =>
      have hfault := hload.fault hloop
      rw [hfault.1]
      rfl
    | ok r =>
      have hvalue := hload.value hloop
      rw [word_width, bufferSize_eq, htoNat, List.length_replicate] at hvalue
      cases r with
      | ok loaded =>
        have hdvd := hvalue.1
        omega
      | error message =>
        have hshort := hvalue.2.1
        omega

end Chunks

end DataSet

end SimdHash
