/-!
# Dense sets of small numbers

A `BitSet` stores a finite set of natural numbers as 64-bit words, lowest word first. Number `k`
is bit `k % 64` of word `k / 64`, and words past the end count as zero, so two sets with storage of
different lengths may have the same members. The view of a set is `contains`; every operation below
has one lemma that says what it does to that view.

Storage is grown by `insert` and `union` and never shrinks. Nothing but `hasStorage` can tell
how much of it there is.
-/

namespace Spillway

/-- A set of natural numbers, one bit a number. -/
structure BitSet where
  words : List UInt64
  deriving DecidableEq, Repr

namespace BitSet

/-! ## Words -/

/-- Bit `j` of a word. -/
def wordBit (w : UInt64) (j : Nat) : Bool := w.toBitVec.getLsbD j

/-- The word whose only bit is bit `j`. -/
def wordMask (j : Nat) : UInt64 := ⟨BitVec.twoPow 64 j⟩

/-- The positions of the bits of a word, ascending. -/
def wordBits (w : UInt64) : List Nat := (List.range 64).filter (wordBit w)

/-- How many bits of a word are set. -/
def wordCount (w : UInt64) : Nat := (List.range 64).countP (wordBit w)

theorem wordBit_zero (j : Nat) : wordBit 0 j = false := by
  simp [wordBit]

theorem wordBit_or (v w : UInt64) (j : Nat) : wordBit (v ||| w) j = (wordBit v j || wordBit w j) := by
  simp [wordBit]

theorem wordBit_and_not (v w : UInt64) {j : Nat} (h : j < 64) :
    wordBit (v &&& ~~~w) j = (wordBit v j && !wordBit w j) := by
  simp [wordBit, h]

theorem wordBit_wordMask {i j : Nat} (h : j < 64) : wordBit (wordMask i) j = decide (i = j) := by
  simp only [wordBit, wordMask, BitVec.getLsbD_twoPow]
  by_cases e : i = j
  · simp [e, h]
  · simp [e]

theorem wordBit_of_ge (w : UInt64) {j : Nat} (h : 64 ≤ j) : wordBit w j = false := by
  simp [wordBit, BitVec.getLsbD_of_ge _ _ h]

/-- Words are equal when all their bits are. -/
theorem word_ext {v w : UInt64} (h : ∀ j < 64, wordBit v j = wordBit w j) : v = w := by
  apply UInt64.toBitVec_inj.mp
  apply BitVec.eq_of_getLsbD_eq
  exact h

/-! ## Membership -/

/-- The set with no members and no storage. -/
def empty : BitSet := ⟨[]⟩

instance : EmptyCollection BitSet := ⟨empty⟩
instance : Inhabited BitSet := ⟨empty⟩

/-- The word that holds the numbers `64 * i` to `64 * i + 63`. -/
def word (s : BitSet) (i : Nat) : UInt64 := s.words.getD i 0

/-- Is `k` a member? -/
def contains (s : BitSet) (k : Nat) : Bool := wordBit (s.word (k / 64)) (k % 64)

instance : Membership Nat BitSet := ⟨fun s k => s.contains k = true⟩

instance (s : BitSet) (k : Nat) : Decidable (k ∈ s) := inferInstanceAs (Decidable (s.contains k = true))

theorem mem_iff {s : BitSet} {k : Nat} : k ∈ s ↔ s.contains k = true := Iff.rfl

@[simp] theorem contains_empty (k : Nat) : empty.contains k = false := by
  simp [contains, word, empty, wordBit_zero]

/-! ## Changing a set -/

/-- Change word `i`, growing the list with zero words up to it. -/
def growModify (f : UInt64 → UInt64) : Nat → List UInt64 → List UInt64
  | 0, [] => [f 0]
  | 0, w :: ws => f w :: ws
  | i + 1, [] => 0 :: growModify f i []
  | i + 1, w :: ws => w :: growModify f i ws

/-- Add a number. -/
def insert (s : BitSet) (k : Nat) : BitSet :=
  ⟨growModify (· ||| wordMask (k % 64)) (k / 64) s.words⟩

/-- Add every number of a list, in turn. -/
def insertMany (s : BitSet) (ks : List Nat) : BitSet := ks.foldl insert s

/-- The set of the numbers of a list. -/
def ofList (ks : List Nat) : BitSet := empty.insertMany ks

/-- Remove a number. Storage stays as it is. -/
def erase (s : BitSet) (k : Nat) : BitSet :=
  ⟨s.words.modify (k / 64) (· &&& ~~~wordMask (k % 64))⟩

/-- Word by word disjunction, as long as the longer list. -/
def orWords : List UInt64 → List UInt64 → List UInt64
  | [], ws => ws
  | v :: vs, [] => v :: vs
  | v :: vs, w :: ws => (v ||| w) :: orWords vs ws

/-- All members of either set. -/
def union (s t : BitSet) : BitSet := ⟨orWords s.words t.words⟩

/-- Word by word removal, as long as the first list. -/
def andNotWords : List UInt64 → List UInt64 → List UInt64
  | [], _ => []
  | v :: vs, [] => v :: vs
  | v :: vs, w :: ws => (v &&& ~~~w) :: andNotWords vs ws

/-- The members of `s` that are not members of `t`. -/
def diff (s t : BitSet) : BitSet := ⟨andNotWords s.words t.words⟩

/-- Remove every member and keep the storage. -/
def clear (s : BitSet) : BitSet := ⟨s.words.map fun _ => 0⟩

/-! ## Reading a set -/

/-- Has any word ever been allocated for the set? -/
def hasStorage (s : BitSet) : Bool := !s.words.isEmpty

/-- The members, ascending. -/
def toList (s : BitSet) : List Nat :=
  s.words.zipIdx.flatMap fun (w, i) => (wordBits w).map (64 * i + ·)

/-- The number of members. -/
def size (s : BitSet) : Nat := s.words.foldr (fun w n => wordCount w + n) 0

/-- Are there no members? -/
def isEmpty (s : BitSet) : Bool := s.words.all (· == 0)

/-- Word by word equality, where a missing word is zero. -/
def sameWords : List UInt64 → List UInt64 → Bool
  | [], ws => ws.all (· == 0)
  | v :: vs, [] => (v :: vs).all (· == 0)
  | v :: vs, w :: ws => v == w && sameWords vs ws

/-- Have the sets the same members? -/
def equal (s t : BitSet) : Bool := sameWords s.words t.words

/-- Have the sets a member in common? -/
def intersects (s t : BitSet) : Bool :=
  (List.zipWith (· &&& ·) s.words t.words).any (· != 0)

/-- Visit the numbers of a list in turn with a state, up to and including the first on which the
visitor answers `false`. -/
def visitList (f : σ → Nat → σ × Bool) (st : σ) : List Nat → σ
  | [] => st
  | k :: ks => if (f st k).2 then visitList f (f st k).1 ks else (f st k).1

/-- Visit the members in ascending order. -/
def visit (f : σ → Nat → σ × Bool) (st : σ) (s : BitSet) : σ := visitList f st s.toList

/-! ## What each operation does to membership -/

theorem word_growModify (f : UInt64 → UInt64) (i j : Nat) (ws : List UInt64) :
    (growModify f i ws).getD j 0 = if i = j then f (ws.getD j 0) else ws.getD j 0 := by
  induction ws generalizing i j with
  | nil =>
    induction i generalizing j with
    | zero => cases j <;> simp [growModify]
    | succ i ih =>
      cases j with
      | zero => simp [growModify]
      | succ j => simpa [growModify] using ih j
  | cons w ws ih =>
    cases i with
    | zero => cases j <;> simp [growModify]
    | succ i =>
      cases j with
      | zero => simp [growModify]
      | succ j => simpa [growModify] using ih i j

theorem eq_of_div_mod {k l : Nat} (hd : k / 64 = l / 64) (hm : k % 64 = l % 64) : k = l := by
  have hk := Nat.div_add_mod k 64
  have hl := Nat.div_add_mod l 64
  omega

@[simp] theorem contains_insert (s : BitSet) (k l : Nat) :
    (s.insert k).contains l = (decide (k = l) || s.contains l) := by
  have hl : l % 64 < 64 := Nat.mod_lt _ (by decide)
  simp only [contains, word, insert, word_growModify]
  by_cases hd : k / 64 = l / 64
  · rw [if_pos hd, wordBit_or, wordBit_wordMask hl, Bool.or_comm]
    congr 1
    by_cases hm : k % 64 = l % 64
    · simp [eq_of_div_mod hd hm]
    · have hne : k ≠ l := fun e => hm (by rw [e])
      simp [hm, hne]
  · have hne : k ≠ l := fun e => hd (by rw [e])
    simp [hd, hne]

theorem mem_insertMany {s : BitSet} {ks : List Nat} {l : Nat} :
    l ∈ s.insertMany ks ↔ l ∈ ks ∨ l ∈ s := by
  induction ks generalizing s with
  | nil => simp [insertMany]
  | cons k ks ih =>
    rw [insertMany, List.foldl_cons, ← insertMany, ih]
    simp only [mem_iff, contains_insert, List.mem_cons, Bool.or_eq_true, decide_eq_true_eq]
    constructor
    · rintro (h | h | h)
      · exact .inl (.inr h)
      · exact .inl (.inl h.symm)
      · exact .inr h
    · rintro ((h | h) | h)
      · exact .inr (.inl h.symm)
      · exact .inl h
      · exact .inr (.inr h)

theorem mem_ofList {ks : List Nat} {l : Nat} : l ∈ ofList ks ↔ l ∈ ks := by
  simp [ofList, mem_insertMany, mem_iff (s := empty)]

@[simp] theorem contains_erase (s : BitSet) (k l : Nat) :
    (s.erase k).contains l = (s.contains l && !decide (k = l)) := by
  have hl : l % 64 < 64 := Nat.mod_lt _ (by decide)
  simp only [contains, word, erase, List.getD_eq_getElem?_getD, List.getElem?_modify]
  by_cases hd : k / 64 = l / 64
  · cases hw : s.words[l / 64]? with
    | none => simp [wordBit_zero]
    | some w =>
      have hbit : wordBit (w &&& ~~~wordMask (k % 64)) (l % 64)
          = (wordBit w (l % 64) && !decide (k % 64 = l % 64)) := by
        rw [wordBit_and_not _ _ hl, wordBit_wordMask hl]
      by_cases hm : k % 64 = l % 64
      · have he : k = l := eq_of_div_mod hd hm
        subst he
        simpa using hbit
      · have hne : k ≠ l := fun e => hm (by rw [e])
        simp [hd, hbit, hm, hne]
  · have hne : k ≠ l := fun e => hd (by rw [e])
    simp [hd, hne]

theorem getD_orWords (vs ws : List UInt64) (i : Nat) :
    (orWords vs ws).getD i 0 = vs.getD i 0 ||| ws.getD i 0 := by
  induction vs generalizing ws i with
  | nil => simp [orWords]
  | cons v vs ih =>
    cases ws with
    | nil => simp [orWords]
    | cons w ws =>
      cases i with
      | zero => simp [orWords]
      | succ i => simpa [orWords] using ih ws i

@[simp] theorem contains_union (s t : BitSet) (k : Nat) :
    (s.union t).contains k = (s.contains k || t.contains k) := by
  simp only [contains, word, union, getD_orWords, wordBit_or]

theorem getD_andNotWords (vs ws : List UInt64) (i : Nat) :
    (andNotWords vs ws).getD i 0 = vs.getD i 0 &&& ~~~(ws.getD i 0) := by
  induction vs generalizing ws i with
  | nil => simp [andNotWords]
  | cons v vs ih =>
    cases ws with
    | nil => simp [andNotWords]
    | cons w ws =>
      cases i with
      | zero => simp [andNotWords]
      | succ i => simpa [andNotWords] using ih ws i

@[simp] theorem contains_diff (s t : BitSet) (k : Nat) :
    (s.diff t).contains k = (s.contains k && !t.contains k) := by
  simp only [contains, word, diff, getD_andNotWords]
  exact wordBit_and_not _ _ (Nat.mod_lt _ (by decide))

@[simp] theorem contains_clear (s : BitSet) (k : Nat) : s.clear.contains k = false := by
  simp only [contains, word, clear, List.getD_eq_getElem?_getD, List.getElem?_map]
  cases s.words[k / 64]? <;> simp [wordBit_zero]

end BitSet

end Spillway
