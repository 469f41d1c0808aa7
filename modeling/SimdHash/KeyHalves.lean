import SimdHash.DataSet

/-! The numbers that the generator accepts. Both 32-bit halves of every draw
go into one set of words, so no half occurs twice in the accepted numbers. -/

namespace SimdHash

namespace DataSet

open FixedWidth

def halves (rnd : UInt64) : List UInt32 := [rnd.toUInt32, (rnd >>> 32).toUInt32]

theorem low_eq (rnd : UInt64) : rnd &&& judyMask = rnd.toUInt32.toUInt64 := by
  apply UInt64.toNat_inj.mp
  rw [UInt64.toNat_and, UInt32.toNat_toUInt64, UInt64.toNat_toUInt32]
  exact Nat.and_two_pow_sub_one_eq_mod rnd.toNat 32

theorem high_toNat (rnd : UInt64) : (rnd >>> 32).toNat = rnd.toNat / 2 ^ 32 := by
  rw [UInt64.toNat_shiftRight, Nat.shiftRight_eq_div_pow]
  rfl

theorem high_eq (rnd : UInt64) : rnd >>> 32 = (rnd >>> 32).toUInt32.toUInt64 := by
  apply UInt64.toNat_inj.mp
  rw [UInt32.toNat_toUInt64, UInt64.toNat_toUInt32, high_toNat]
  have hlt := rnd.toNat_lt
  omega

theorem toUInt64_injective : Function.Injective UInt32.toUInt64 := by
  intro x y h
  have hnat := congrArg UInt64.toNat h
  rw [UInt32.toNat_toUInt64, UInt32.toNat_toUInt64] at hnat
  exact UInt32.toNat_inj.mp hnat

section Drawing

/-- The halves that have been seen, and the numbers that have been accepted. -/
structure Drawn where
  seen : Finset UInt32
  accepted : List UInt64
  recorded : ∀ half ∈ accepted.flatMap halves, half ∈ seen
  nodup : (accepted.flatMap halves).Nodup

/-- A number is accepted if neither half has been seen and they differ. The
low half counts as seen even if the high one is refused. -/
def Drawn.draw (d : Drawn) (rnd : UInt64) : Drawn :=
  if hlow : rnd.toUInt32 ∈ d.seen then d
  else if hhigh : (rnd >>> 32).toUInt32 ∈ insert rnd.toUInt32 d.seen then
    { d with
      seen := insert rnd.toUInt32 d.seen
      recorded := fun half hhalf => Finset.mem_insert_of_mem (d.recorded half hhalf) }
  else
    { seen := insert (rnd >>> 32).toUInt32 (insert rnd.toUInt32 d.seen)
      accepted := d.accepted ++ [rnd]
      recorded := by
        intro half hhalf
        rw [List.flatMap_append, List.mem_append] at hhalf
        rcases hhalf with hold | hnew
        · exact Finset.mem_insert_of_mem (Finset.mem_insert_of_mem (d.recorded half hold))
        · simp only [halves, List.flatMap_cons, List.flatMap_nil, List.append_nil, List.mem_cons,
            List.not_mem_nil, or_false] at hnew
          rcases hnew with rfl | rfl
          · exact Finset.mem_insert_of_mem (Finset.mem_insert_self _ _)
          · exact Finset.mem_insert_self _ _
      nodup := by
        rw [Finset.mem_insert, not_or] at hhigh
        rw [List.flatMap_append]
        refine List.nodup_append.mpr ⟨d.nodup, ?_, ?_⟩
        · simpa [halves] using Ne.symm hhigh.1
        · intro half hold other hnew heq
          subst heq
          simp only [halves, List.flatMap_cons, List.flatMap_nil, List.append_nil, List.mem_cons,
            List.not_mem_nil, or_false] at hnew
          rcases hnew with rfl | rfl
          · exact hlow (d.recorded _ hold)
          · exact hhigh.2 (d.recorded _ hold) }

/-- What the first `n` draws of the distribution come to. -/
def drawn (distribution : ℕ → UInt64) : ℕ → Drawn
  | 0 => ⟨∅, [], by simp, by simp⟩
  | n + 1 => (drawn distribution n).draw (distribution n)

theorem length_halves (l : List UInt64) : (l.flatMap halves).length = 2 * l.length := by
  induction l with
  | nil => rfl
  | cons rnd l ih =>
    rw [List.flatMap_cons, List.length_append, ih, List.length_cons, halves]
    simp only [List.length_cons, List.length_nil]
    omega

theorem Drawn.length_le (d : Drawn) : 2 * d.accepted.length ≤ 2 ^ 32 := by
  have hnodup := d.nodup.map (f := UInt32.toNat) fun x y => UInt32.toNat_inj.mp
  have hsub : ((d.accepted.flatMap halves).map UInt32.toNat).toFinset ⊆ Finset.range (2 ^ 32) := by
    intro n hn
    obtain ⟨half, -, rfl⟩ := List.mem_map.mp (List.mem_toFinset.mp hn)
    exact Finset.mem_range.mpr half.toNat_lt
  have hcard := Finset.card_le_card hsub
  rw [List.toFinset_card_of_nodup hnodup, List.length_map, length_halves, Finset.card_range] at hcard
  exact hcard

theorem Drawn.accepted_nodup (d : Drawn) : (d.accepted.map UInt64.toUInt32).Nodup := by
  refine d.nodup.sublist ?_
  induction d.accepted with
  | nil => exact .slnil
  | cons rnd l ih => exact (ih.cons (rnd >>> 32).toUInt32).cons_cons rnd.toUInt32

theorem Drawn.draw_accepted (d : Drawn) (rnd : UInt64) :
    (d.draw rnd).accepted = d.accepted ∨ (d.draw rnd).accepted = d.accepted ++ [rnd] := by
  rw [draw]
  split_ifs
  · exact .inl rfl
  · exact .inl rfl
  · exact .inr rfl

theorem drawn_sublist (distribution : ℕ → UInt64) (n : ℕ) :
    (drawn distribution n).accepted.Sublist ((List.range n).map distribution) := by
  induction n with
  | zero => exact .slnil
  | succ n ih =>
    rw [List.range_succ, List.map_append]
    rcases (drawn distribution n).draw_accepted (distribution n) with heq | heq
    · rw [drawn, heq]
      exact ih.trans (List.sublist_append_left _ _)
    · rw [drawn, heq]
      exact ih.append (List.Sublist.refl _)

end Drawing

section Following

variable {J : Type} {judy : Judy1 J} {words : J → Set UInt64} {distribution : ℕ → UInt64}
  {header : UInt64} {g g' : Generator J} {d : Drawn}

/-- The generator has recorded the halves of `d` and put out its numbers. -/
structure Follows (words : J → Set UInt64) (header : UInt64) (d : Drawn) (g : Generator J) :
    Prop where
  words : words g.judy = UInt32.toUInt64 '' d.seen
  count : g.count.toNat = d.accepted.length
  written : g.outFile ++ word.encodeAll g.buffer = word.encodeAll (header :: d.accepted)

theorem Judy1.IsSet.start (h : judy.IsSet words) (distribution : ℕ → UInt64) (header : UInt64) :
    Follows words header (drawn distribution 0) (Generator.start judy header) where
  words := by simp [Generator.start, drawn, h.null]
  count := rfl
  written := rfl

theorem Judy1.IsSet.insert_image (h : judy.IsSet words) {array : J} {seen : Finset UInt32}
    (harray : words array = UInt32.toUInt64 '' seen) (half : UInt32) :
    words (judy.j1s array half.toUInt64).2 =
      UInt32.toUInt64 '' (Insert.insert half seen : Finset UInt32) := by
  rw [h.insert, harray, Finset.coe_insert, Set.image_insert_eq]

theorem Judy1.IsSet.new_image (h : judy.IsSet words) {array : J} {seen : Finset UInt32}
    (harray : words array = UInt32.toUInt64 '' seen) (half : UInt32) :
    (judy.j1s array half.toUInt64).1 = 1 ↔ half ∉ seen := by
  rw [h.new, harray, toUInt64_injective.mem_set_image, Finset.mem_coe]

theorem Generator.push_written (g : Generator J) (rnd : UInt64) :
    (g.push rnd).outFile ++ word.encodeAll (g.push rnd).buffer =
      g.outFile ++ word.encodeAll g.buffer ++ word.encode rnd := by
  rw [push]
  split_ifs
  · simp [write]
  · simp

theorem Generator.push_count (g : Generator J) (rnd : UInt64) :
    (g.push rnd).count = g.count + 1 := by
  rw [push]
  split_ifs <;> rfl

theorem Generator.push_judy (g : Generator J) (rnd : UInt64) : (g.push rnd).judy = g.judy := by
  rw [push]
  split_ifs <;> rfl

theorem Generator.push_draws (g : Generator J) (rnd : UInt64) : (g.push rnd).draws = g.draws := by
  rw [push]
  split_ifs <;> rfl

theorem Follows.push (h : Follows words header d g) {d' : Drawn} {rnd : UInt64}
    (hwords : words g'.judy = UInt32.toUInt64 '' d'.seen)
    (haccepted : d'.accepted = d.accepted ++ [rnd]) (hcount : g'.count = g.count)
    (hbuffer : g'.buffer = g.buffer) (hfile : g'.outFile = g.outFile) :
    Follows words header d' (g'.push rnd) where
  words := by rw [Generator.push_judy, hwords]
  count := by
    have hle := d'.length_le
    rw [haccepted, List.length_append, List.length_singleton] at hle ⊢
    rw [Generator.push_count, hcount, UInt32.toNat_add, h.count]
    exact Nat.mod_eq_of_lt (by simp; omega)
  written := by
    rw [Generator.push_written, hbuffer, hfile, h.written, haccepted]
    simp

/-- One round of the generator is one draw. -/
theorem Follows.step (hjudy : judy.IsSet words) (h : Follows words header d g)
    (hlt : g.count.toUInt64 < header) : ∃ g', generateStep judy distribution header g = .ok (.inl g') ∧
      Follows words header (d.draw (distribution g.draws)) g' ∧ g'.draws = g.draws + 1 := by
  set rnd := distribution g.draws with hrnd
  have hlow := hjudy.insert_image h.words rnd.toUInt32
  have hnew := hjudy.new_image h.words rnd.toUInt32
  have hhigh := hjudy.insert_image hlow (rnd >>> 32).toUInt32
  have hnew' := hjudy.new_image hlow (rnd >>> 32).toUInt32
  rw [← low_eq] at hlow hnew hhigh hnew'
  rw [← high_eq] at hhigh hnew'
  simp only [generateStep, if_pos hlt, ← hrnd]
  by_cases hseen : rnd.toUInt32 ∈ d.seen
  · have hdraw : d.draw rnd = d := by rw [Drawn.draw, dif_pos hseen]
    rw [if_pos (hnew.not.mpr (not_not.mpr hseen)), hdraw]
    refine ⟨_, rfl, ⟨?_, h.count, h.written⟩, rfl⟩
    rw [hlow, Finset.insert_eq_of_mem hseen]
  · rw [if_neg (not_not.mpr (hnew.mpr hseen))]
    by_cases hseen' : (rnd >>> 32).toUInt32 ∈ Insert.insert rnd.toUInt32 d.seen
    · rw [if_pos (hnew'.not.mpr (not_not.mpr hseen')), Drawn.draw, dif_neg hseen, dif_pos hseen']
      refine ⟨_, rfl, ⟨?_, h.count, h.written⟩, rfl⟩
      rw [hhigh, Finset.insert_eq_of_mem hseen']
    · rw [if_neg (not_not.mpr (hnew'.mpr hseen')), Drawn.draw, dif_neg hseen, dif_neg hseen']
      refine ⟨_, rfl, h.push hhigh rfl rfl rfl rfl, ?_⟩
      rw [Generator.push_draws]

theorem Judy1.IsSet.follows (hjudy : judy.IsSet words)
    (hg : Exec.Rounds (generateStep judy distribution header) (Generator.start judy header) g) :
    Follows words header (drawn distribution g.draws) g := by
  induction hg with
  | refl => exact hjudy.start distribution header
  | @tail g g' _ hstep ih =>
    by_cases hlt : g.count.toUInt64 < header
    · obtain ⟨t, hround, hfollows, hdraws⟩ := ih.step hjudy hlt
      rw [hstep, Except.ok.injEq, Sum.inl.injEq] at hround
      subst hround
      rw [hdraws]
      exact hfollows
    · rw [generateStep, if_neg hlt] at hstep
      cases hstep

end Following

section Claims

/-- A Judy array kept as the list of its words. -/
def listed : Judy1 (List UInt64) where
  null := []
  j1s array word := if word ∈ array then (0, array) else (1, word :: array)

theorem listed_isSet : listed.IsSet fun array => {word | word ∈ array} where
  null := by simp [listed]
  insert array word := by
    ext x
    by_cases hword : word ∈ array
    · simp only [listed, if_pos hword, Set.mem_ofPred_eq, Set.mem_insert_iff]
      exact ⟨.inr, fun h => h.elim (fun heq => heq ▸ hword) id⟩
    · simp [listed, if_neg hword]
  new array word := by
    by_cases hword : word ∈ array
    · simp [listed, hword]
    · simp [listed, hword]

/-- Whenever the generator's loop is entered again, what it has written and
buffered after the header are draws in their order, `count` of them, whose
halves are all different; so they differ also as 32-bit keys. -/
theorem keys_stay_unique {J : Type} {judy : Judy1 J} {words : J → Set UInt64}
    (hjudy : judy.IsSet words) (distribution : ℕ → UInt64) (dataSetSize : UInt64)
    {g : Generator J} (hg : Exec.Rounds (generateStep judy distribution dataSetSize)
      (Generator.start judy dataSetSize) g) :
    ∃ accepted : List UInt64,
      g.outFile ++ word.encodeAll g.buffer = word.encodeAll (dataSetSize :: accepted) ∧
      accepted.Sublist ((List.range g.draws).map distribution) ∧
      accepted.length = g.count.toNat ∧ (accepted.flatMap halves).length = 2 * g.count.toNat ∧
      (accepted.flatMap halves).Nodup ∧ accepted.Nodup ∧
      (accepted.map UInt64.toUInt32).Nodup := by
  have h := hjudy.follows hg
  set d := drawn distribution g.draws
  refine ⟨d.accepted, h.written, drawn_sublist distribution g.draws, h.count.symm, ?_, d.nodup,
    d.accepted_nodup.of_map _, d.accepted_nodup⟩
  rw [length_halves, h.count]

/-- Draws of which the third has the high half of the first. -/
def fourDraws (n : ℕ) : UInt64 := [0x100000000, 0x300000002, 0x100000004, 0x600000005].getD n 0

theorem keys_stay_unique_listed : ∃ accepted : List UInt64,
    word.encodeAll [3, 0x100000000, 0x300000002, 0x600000005] = word.encodeAll (3 :: accepted) ∧
    accepted.Sublist [0x100000000, 0x300000002, 0x100000004, 0x600000005] ∧
    accepted.length = 3 ∧ (accepted.flatMap halves).Nodup := by
  have hfirst : generateStep listed fourDraws 3 (Generator.start listed 3) =
      .ok (.inl ⟨1, [1, 0], 1, [3, 0x100000000], []⟩) := by with_unfolding_all rfl
  have hsecond : generateStep listed fourDraws 3 ⟨1, [1, 0], 1, [3, 0x100000000], []⟩ =
      .ok (.inl ⟨2, [3, 2, 1, 0], 2, [3, 0x100000000, 0x300000002], []⟩) := by
    with_unfolding_all rfl
  have hthird : generateStep listed fourDraws 3
      ⟨2, [3, 2, 1, 0], 2, [3, 0x100000000, 0x300000002], []⟩ =
      .ok (.inl ⟨3, [4, 3, 2, 1, 0], 2, [3, 0x100000000, 0x300000002], []⟩) := by
    with_unfolding_all rfl
  have hfourth : generateStep listed fourDraws 3
      ⟨3, [4, 3, 2, 1, 0], 2, [3, 0x100000000, 0x300000002], []⟩ =
      .ok (.inl ⟨4, [6, 5, 4, 3, 2, 1, 0], 3, [3, 0x100000000, 0x300000002, 0x600000005], []⟩) := by
    with_unfolding_all rfl
  have hrounds : Exec.Rounds (generateStep listed fourDraws 3) (Generator.start listed 3) _ :=
    Relation.ReflTransGen.tail (.tail (.tail (.tail .refl hfirst) hsecond) hthird) hfourth
  obtain ⟨accepted, hwritten, hsublist, hlength, -, hnodup, -⟩ :=
    keys_stay_unique listed_isSet fourDraws 3 hrounds
  exact ⟨accepted, hwritten, hsublist, hlength, hnodup⟩

end Claims

end DataSet

end SimdHash
