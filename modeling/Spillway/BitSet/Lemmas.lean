import Spillway.BitSet.Basic

/-!
# What can be read off a set

Every reading of a `BitSet` is determined by its members: `toList` lists them in strictly ascending
order, `size` counts them, and `isEmpty`, `equal` and `intersects` compare members and not storage.
-/

namespace Spillway.BitSet

/-! ## Words -/

theorem wordBit_lt {w : UInt64} {j : Nat} (h : wordBit w j = true) : j < 64 := by
  refine Nat.lt_of_not_le fun hge => ?_
  rw [wordBit_of_ge w hge] at h
  cases h

theorem mem_wordBits {w : UInt64} {j : Nat} : j ∈ wordBits w ↔ wordBit w j = true := by
  simp only [wordBits, List.mem_filter, List.mem_range]
  exact ⟨fun h => h.2, fun h => ⟨wordBit_lt h, h⟩⟩

theorem pairwise_wordBits (w : UInt64) : (wordBits w).Pairwise (· < ·) :=
  List.pairwise_lt_range.filter _

theorem length_wordBits (w : UInt64) : (wordBits w).length = wordCount w := by
  rw [wordBits, wordCount, List.countP_eq_length_filter]

theorem word_eq_zero_iff {w : UInt64} : w = 0 ↔ ∀ j < 64, wordBit w j = false := by
  constructor
  · rintro rfl j _
    exact wordBit_zero j
  · intro h
    refine word_ext fun j hj => ?_
    rw [h j hj, wordBit_zero]

/-! ## Members by word and bit -/

theorem contains_add (s : BitSet) (i : Nat) {j : Nat} (hj : j < 64) :
    s.contains (64 * i + j) = wordBit (s.word i) j := by
  have hdiv : (64 * i + j) / 64 = i := by omega
  have hmod : (64 * i + j) % 64 = j := by omega
  rw [contains, hdiv, hmod]

/-- Sets with the same members have the same words, storage apart. -/
theorem word_eq_of_contains_eq {s t : BitSet} (h : ∀ k, s.contains k = t.contains k) (i : Nat) :
    s.word i = t.word i := by
  refine word_ext fun j hj => ?_
  rw [← contains_add s i hj, ← contains_add t i hj]
  exact h _

/-! ## The list of members -/

theorem mem_toList {s : BitSet} {k : Nat} : k ∈ s.toList ↔ k ∈ s := by
  simp only [toList, List.mem_flatMap, List.mem_map, Prod.exists, List.mem_zipIdx_iff_getElem?]
  constructor
  · rintro ⟨w, i, hw, j, hj, rfl⟩
    have hj64 : j < 64 := wordBit_lt (mem_wordBits.mp hj)
    rw [mem_iff, contains_add s i hj64, word, List.getD_eq_getElem?_getD, hw]
    exact mem_wordBits.mp hj
  · intro h
    have hbit : wordBit (s.word (k / 64)) (k % 64) = true := h
    rw [word, List.getD_eq_getElem?_getD] at hbit
    cases hw : s.words[k / 64]? with
    | none =>
      rw [hw, Option.getD_none, wordBit_zero] at hbit
      cases hbit
    | some w =>
      rw [hw, Option.getD_some] at hbit
      exact ⟨w, k / 64, hw, k % 64, mem_wordBits.mpr hbit, Nat.div_add_mod k 64⟩

theorem pairwise_toList (s : BitSet) : s.toList.Pairwise (· < ·) := by
  have hidx : s.words.zipIdx.Pairwise fun a b => a.2 < b.2 := by
    rw [← List.pairwise_map, List.zipIdx_map_snd]
    exact List.pairwise_lt_range'
  refine List.pairwise_flatMap.mpr ⟨?_, hidx.imp ?_⟩
  · rintro ⟨w, i⟩ _
    exact List.pairwise_map.mpr ((pairwise_wordBits w).imp fun h => by omega)
  · rintro ⟨v, i⟩ ⟨w, j⟩ hij x hx y hy
    obtain ⟨a, ha, rfl⟩ := List.mem_map.mp hx
    obtain ⟨b, _, rfl⟩ := List.mem_map.mp hy
    have ha64 : a < 64 := wordBit_lt (mem_wordBits.mp ha)
    simp only at hij
    omega

theorem nodup_toList (s : BitSet) : s.toList.Nodup :=
  s.pairwise_toList.imp fun h => Nat.ne_of_lt h

theorem length_toList (s : BitSet) : s.toList.length = s.size := by
  -- the place of a word shifts its members and does not change how many they are
  have hfrom : ∀ (ws : List UInt64) (start : Nat),
      ((ws.zipIdx start).flatMap fun p => (wordBits p.1).map (64 * p.2 + ·)).length =
        ws.foldr (fun w n => wordCount w + n) 0 := by
    intro ws
    induction ws with
    | nil => intro start; rfl
    | cons w ws ih =>
      intro start
      rw [List.zipIdx_cons, List.flatMap_cons, List.length_append, List.length_map,
        length_wordBits, ih, List.foldr_cons]
  exact hfrom s.words 0

/-! ## Comparisons -/

theorem isEmpty_iff {s : BitSet} : s.isEmpty = true ↔ ∀ k, k ∉ s := by
  simp only [isEmpty, List.all_eq_true, beq_iff_eq]
  constructor
  · intro h k hk
    rw [mem_iff, contains, word, List.getD_eq_getElem?_getD] at hk
    cases hw : s.words[k / 64]? with
    | none => simp [hw, wordBit_zero] at hk
    | some w =>
      have hzero : w = 0 := h w (List.mem_of_getElem? hw)
      simp [hw, hzero, wordBit_zero] at hk
  · intro h w hw
    obtain ⟨i, hi⟩ := List.getElem?_of_mem hw
    refine word_eq_zero_iff.mpr fun j hj => ?_
    have hk := h (64 * i + j)
    rw [mem_iff, contains_add s i hj, word, List.getD_eq_getElem?_getD, hi] at hk
    simpa using hk

theorem sameWords_iff {vs ws : List UInt64} :
    sameWords vs ws = true ↔ ∀ i, vs.getD i 0 = ws.getD i 0 := by
  have hzero : ∀ us : List UInt64, (us.all (· == 0)) = true ↔ ∀ i, us.getD i 0 = 0 := by
    intro us
    simp only [List.all_eq_true, beq_iff_eq, List.getD_eq_getElem?_getD]
    constructor
    · intro h i
      cases hu : us[i]? with
      | none => rfl
      | some u => exact h u (List.mem_of_getElem? hu)
    · intro h u hu
      obtain ⟨i, hi⟩ := List.getElem?_of_mem hu
      simpa [hi] using h i
  induction vs generalizing ws with
  | nil =>
    rw [sameWords, hzero]
    simp [eq_comm]
  | cons v vs ih =>
    cases ws with
    | nil =>
      rw [sameWords, hzero]
      simp
    | cons w ws =>
      rw [sameWords, Bool.and_eq_true, beq_iff_eq]
      constructor
      · rintro ⟨rfl, h⟩ i
        cases i with
        | zero => rfl
        | succ i => simpa using ih.mp h i
      · intro h
        exact ⟨by simpa using h 0, ih.mpr fun i => by simpa using h (i + 1)⟩

theorem equal_iff {s t : BitSet} : s.equal t = true ↔ ∀ k, k ∈ s ↔ k ∈ t := by
  rw [equal, sameWords_iff]
  constructor
  · intro h k
    have hword : s.word (k / 64) = t.word (k / 64) := h _
    rw [mem_iff, mem_iff, contains, contains, hword]
  · intro h i
    exact word_eq_of_contains_eq (fun k => Bool.eq_iff_iff.mpr (h k)) i

theorem wordBit_and (v w : UInt64) (j : Nat) : wordBit (v &&& w) j = (wordBit v j && wordBit w j) := by
  simp [wordBit]

theorem intersects_iff {s t : BitSet} : s.intersects t = true ↔ ∃ k, k ∈ s ∧ k ∈ t := by
  simp only [intersects, List.any_eq_true, bne_iff_ne, ne_eq]
  constructor
  · rintro ⟨u, hu, hne⟩
    obtain ⟨i, hi⟩ := List.getElem?_of_mem hu
    rw [List.getElem?_zipWith] at hi
    cases hv : s.words[i]? with
    | none => simp [hv] at hi
    | some v =>
      cases hw : t.words[i]? with
      | none => simp [hv, hw] at hi
      | some w =>
        simp only [hv, hw, Option.some.injEq] at hi
        have hbit : ∃ j, j < 64 ∧ wordBit u j = true := by
          refine Classical.byContradiction fun hno => hne (word_eq_zero_iff.mpr fun j hj => ?_)
          refine Bool.eq_false_iff.mpr fun hb => hno ⟨j, hj, hb⟩
        obtain ⟨j, hj, hb⟩ := hbit
        rw [← hi, wordBit_and, Bool.and_eq_true] at hb
        refine ⟨64 * i + j, ?_, ?_⟩
        · rw [mem_iff, contains_add s i hj, word, List.getD_eq_getElem?_getD, hv]
          exact hb.1
        · rw [mem_iff, contains_add t i hj, word, List.getD_eq_getElem?_getD, hw]
          exact hb.2
  · rintro ⟨k, hs, ht⟩
    rw [mem_iff, contains, word, List.getD_eq_getElem?_getD] at hs ht
    cases hv : s.words[k / 64]? with
    | none => simp [hv, wordBit_zero] at hs
    | some v =>
      cases hw : t.words[k / 64]? with
      | none => simp [hw, wordBit_zero] at ht
      | some w =>
        rw [hv] at hs
        rw [hw] at ht
        refine ⟨v &&& w, List.mem_of_getElem? (i := k / 64) (by rw [List.getElem?_zipWith, hv, hw]), ?_⟩
        intro hzero
        have hbit : wordBit (v &&& w) (k % 64) = true := by
          rw [wordBit_and, Bool.and_eq_true]
          exact ⟨hs, ht⟩
        rw [hzero, wordBit_zero] at hbit
        cases hbit

end Spillway.BitSet
