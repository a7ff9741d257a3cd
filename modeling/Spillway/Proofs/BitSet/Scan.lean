import Spillway.BitSet.Lemmas

/-!
# Visiting members word by word

Members can be visited without listing them first: take the words in turn, and of each word the
lowest bit, which is then removed, until no bit is left or the visitor wants no more. `BitSet.scan`
does this, and it is the visit of the list of members (`scan_eq_visit`).

`Visits` says which members a visitor sees: the first ones, up to and including the one on which it
answers `false` (`exists_visits`).
-/

namespace Spillway.BitSet

/-! ## The lowest bit of a word -/

/-- The place of the lowest bit of a word. -/
def lowestBit (w : UInt64) : Nat := w.toBitVec.ctz.toNat

/-- A word without its lowest bit. -/
def dropLowest (w : UInt64) : UInt64 := w &&& ~~~wordMask (lowestBit w)

theorem wordBit_lowestBit {w : UInt64} (h : w ≠ 0) : wordBit w (lowestBit w) = true := by
  apply BitVec.getLsbD_true_ctz_of_ne_zero
  intro hzero
  exact h (UInt64.toBitVec_inj.mp hzero)

theorem lowestBit_le {w : UInt64} {j : Nat} (h : wordBit w j = true) : lowestBit w ≤ j := by
  refine Nat.le_of_not_lt fun hlt => ?_
  have hfalse : wordBit w j = false := BitVec.getLsbD_false_of_lt_ctz hlt
  rw [hfalse] at h
  cases h

theorem wordBit_dropLowest {w : UInt64} {j : Nat} :
    wordBit (dropLowest w) j = true ↔ wordBit w j = true ∧ lowestBit w ≠ j := by
  by_cases hj : j < 64
  · rw [dropLowest, wordBit_and_not _ _ hj, wordBit_wordMask hj]
    simp
  · have hge : 64 ≤ j := by omega
    simp [wordBit_of_ge _ hge]

/-- The lowest bit is the first one in the list, and the rest of the list is that of the rest of the
word. -/
theorem wordBits_eq_cons {w : UInt64} (h : w ≠ 0) :
    wordBits w = lowestBit w :: wordBits (dropLowest w) := by
  have hhead : ∀ j ∈ wordBits (dropLowest w), lowestBit w < j := by
    intro j hj
    obtain ⟨hbit, hne⟩ := wordBit_dropLowest.mp (mem_wordBits.mp hj)
    have hle := lowestBit_le hbit
    omega
  have hsorted : (lowestBit w :: wordBits (dropLowest w)).Pairwise (· < ·) :=
    .cons hhead (pairwise_wordBits _)
  refine List.Perm.eq_of_pairwise ?_ (pairwise_wordBits w) hsorted ?_
  · intro a b _ _ hab hba
    exact absurd hab (Nat.lt_asymm hba)
  · refine (List.perm_ext_iff_of_nodup ?_ ?_).mpr fun j => ?_
    · exact (pairwise_wordBits w).imp fun hlt => Nat.ne_of_lt hlt
    · exact hsorted.imp fun hlt => Nat.ne_of_lt hlt
    · rw [List.mem_cons, mem_wordBits, mem_wordBits, wordBit_dropLowest]
      constructor
      · intro hbit
        by_cases hj : lowestBit w = j
        · exact .inl hj.symm
        · exact .inr ⟨hbit, hj⟩
      · rintro (rfl | ⟨hbit, _⟩)
        · exact wordBit_lowestBit h
        · exact hbit

theorem wordBits_zero : wordBits 0 = [] := by
  refine List.eq_nil_iff_forall_not_mem.mpr fun j hj => ?_
  have hbit := mem_wordBits.mp hj
  rw [wordBit_zero] at hbit
  cases hbit

theorem wordCount_dropLowest_lt {w : UInt64} (h : w ≠ 0) : wordCount (dropLowest w) < wordCount w := by
  rw [← length_wordBits, ← length_wordBits, wordBits_eq_cons h, List.length_cons]
  omega

/-! ## The loops -/

section
variable {σ : Type} (f : σ → Nat → σ × Bool)

/-- Visit the numbers of a list in turn and say whether the visitor wants more. -/
def walk (st : σ) : List Nat → σ × Bool
  | [] => (st, true)
  | k :: ks => if (f st k).2 then walk (f st k).1 ks else ((f st k).1, false)

/-- Visit the bits of a word from the lowest one up, as numbers from `base` on. -/
def scanWord (base : Nat) (st : σ) (w : UInt64) : σ × Bool :=
  if w = 0 then (st, true)
  else if (f st (base + lowestBit w)).2 then
    scanWord base (f st (base + lowestBit w)).1 (dropLowest w)
  else ((f st (base + lowestBit w)).1, false)
termination_by wordCount w
decreasing_by exact wordCount_dropLowest_lt ‹_›

/-- Visit the bits of words, the first of which is word `i` of a set. -/
def scanWords (i : Nat) (st : σ) : List UInt64 → σ × Bool
  | [] => (st, true)
  | w :: ws =>
    if (scanWord f (64 * i) st w).2 then scanWords (i + 1) (scanWord f (64 * i) st w).1 ws
    else scanWord f (64 * i) st w

/-- Visit the members of a set word by word. -/
def scan (st : σ) (s : BitSet) : σ := (scanWords f 0 st s.words).1

theorem walk_fst (st : σ) (ks : List Nat) : (walk f st ks).1 = visitList f st ks := by
  induction ks generalizing st with
  | nil => rfl
  | cons k ks ih =>
      unfold walk visitList
      split
      · exact ih _
      · rfl

/-- Of two lists the second one is visited if the visitor wants more after the first one. -/
theorem walk_append (st : σ) (ks ls : List Nat) :
    walk f st (ks ++ ls) =
      if (walk f st ks).2 then walk f (walk f st ks).1 ls else walk f st ks := by
  induction ks generalizing st with
  | nil => rfl
  | cons k ks ih =>
      rw [List.cons_append, walk, walk]
      split
      · exact ih _
      · rfl

theorem scanWord_eq_walk (base : Nat) (st : σ) (w : UInt64) :
    scanWord f base st w = walk f st ((wordBits w).map (base + ·)) := by
  fun_induction scanWord f base st w with
  | case1 st => rw [wordBits_zero]; rfl
  | case2 st w hw hmore ih => rw [wordBits_eq_cons hw, List.map_cons, walk, if_pos hmore, ih]
  | case3 st w hw hmore => rw [wordBits_eq_cons hw, List.map_cons, walk, if_neg hmore]

theorem scanWords_eq_walk (i : Nat) (st : σ) (ws : List UInt64) :
    scanWords f i st ws =
      walk f st ((ws.zipIdx i).flatMap fun p => (wordBits p.1).map (64 * p.2 + ·)) := by
  induction ws generalizing i st with
  | nil => rfl
  | cons w ws ih =>
      rw [List.zipIdx_cons, List.flatMap_cons, walk_append, ← scanWord_eq_walk, scanWords, ih]

theorem scan_eq_visit (st : σ) (s : BitSet) : s.scan f st = s.visit f st := by
  rw [scan, scanWords_eq_walk, walk_fst]
  rfl

/-! ## What is visited -/

/-- The state of a visitor that has seen the numbers of a list. -/
def seen (st : σ) (ks : List Nat) : σ := ks.foldl (fun st k => (f st k).1) st

/-- A visitor of `members` sees `ks`: it wants more after each of them but the last one, and sees all
members unless it wants no more after the last one. -/
structure Visits (st : σ) (members ks : List Nat) : Prop where
  initial : ks <+: members
  goesOn : ∀ before k next after, ks = before ++ k :: next :: after →
    (f (seen f st before) k).2 = true
  stops : ks = members ∨ ∃ before k, ks = before ++ [k] ∧ (f (seen f st before) k).2 = false

variable {f} {st : σ} {k : Nat} {ks members : List Nat}

theorem Visits.nil : Visits f st [] [] where
  initial := List.prefix_rfl
  goesOn before _ _ _ h := by cases before <;> cases h
  stops := .inl rfl

theorem Visits.last (h : (f st k).2 = false) : Visits f st (k :: members) [k] where
  initial := List.prefix_append [k] members
  goesOn before _ _ _ heq := by
    have hlen := congrArg List.length heq
    simp at hlen
    omega
  stops := .inr ⟨[], k, rfl, h⟩

theorem Visits.cons (hmore : (f st k).2 = true) (h : Visits f (f st k).1 members ks) :
    Visits f st (k :: members) (k :: ks) where
  initial := List.prefix_cons_inj k |>.mpr h.initial
  goesOn before l next after heq := by
    cases before with
    | nil =>
        cases heq
        exact hmore
    | cons b before =>
        injection heq with hb hks
        subst hb
        exact h.goesOn before l next after hks
  stops := by
    rcases h.stops with rfl | ⟨before, l, rfl, hstop⟩
    · exact .inl rfl
    · exact .inr ⟨k :: before, l, rfl, hstop⟩

/-- The visit of a list leaves the state of a visitor that has seen what it visits. -/
theorem exists_visits (st : σ) (members : List Nat) :
    ∃ ks, Visits f st members ks ∧ visitList f st members = seen f st ks := by
  induction members generalizing st with
  | nil => exact ⟨[], .nil, rfl⟩
  | cons k members ih =>
      rw [visitList]
      split
      · rename_i hmore
        obtain ⟨ks, hvisits, hseen⟩ := ih (f st k).1
        exact ⟨k :: ks, hvisits.cons hmore, hseen⟩
      · rename_i hstop
        exact ⟨[k], .last (by simpa using hstop), rfl⟩

end

end Spillway.BitSet
