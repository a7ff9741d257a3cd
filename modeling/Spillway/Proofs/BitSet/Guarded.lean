import Spillway.BitSet.Basic
import Spillway.Proofs.Checked

/-!
# Sets word by word

The operations on sets that an allocation needs, as loops over words that read and write one word at
a time by its index. Storage is made long enough before a word is written. No set and no number
makes an operation go astray, and each has the result of the operation on `BitSet` of the same name
(`contains_eq`, `insert_eq`, `union_eq`, `diff_eq`).
-/

namespace Spillway

open Checked

namespace Guarded

/-! ## The operations -/

/-- Is `k` a member? -/
def contains (s : BitSet) (k : Nat) : Checked Bool :=
  if s.words.length ≤ k / 64 then pure false
  else do return BitSet.wordBit (← item s.words (k / 64)) (k % 64)

/-- The words with zero words after them, up to a length. -/
def grow (ws : List UInt64) (length : Nat) : List UInt64 :=
  ws ++ List.replicate (length - ws.length) 0

/-- Add a number. -/
def insert (s : BitSet) (k : Nat) : Checked BitSet := do
  let ws := grow s.words (k / 64 + 1)
  let w ← item ws (k / 64)
  return ⟨← setItem ws (k / 64) (w ||| BitSet.wordMask (k % 64))⟩

/-- All members of either set. -/
def union (s t : BitSet) : Checked BitSet := do
  let ws := grow s.words t.words.length
  return ⟨← changeAll (fun _ v w => pure (v ||| w)) 0 t.words ws⟩

/-- The members of `s` that are not members of `t`. -/
def diff (s t : BitSet) : Checked BitSet := do
  let common ← slice t.words 0 (min s.words.length t.words.length)
  return ⟨← changeAll (fun _ v w => pure (v &&& ~~~w)) 0 common s.words⟩

/-- The set of the numbers of a list. -/
def ofList (ks : List Nat) : Checked BitSet := ks.foldlM insert .empty

/-! ## None goes astray -/

theorem contains_eq (s : BitSet) (k : Nat) : contains s k = pure (s.contains k) := by
  unfold contains
  split
  · rename_i h
    have hword : s.word (k / 64) = 0 := by
      rw [BitSet.word, List.getD_eq_getElem?_getD, List.getElem?_eq_none h, Option.getD_none]
    rw [BitSet.contains, hword, BitSet.wordBit_zero]
  · rename_i h
    have hsome := List.getElem?_eq_getElem (Nat.lt_of_not_le h)
    have hword : s.word (k / 64) = s.words[k / 64] := by
      rw [BitSet.word, List.getD_eq_getElem?_getD, hsome, Option.getD_some]
    rw [item_eq hsome, pure_bind, BitSet.contains, hword]

theorem grow_cons (w : UInt64) (ws : List UInt64) (n : Nat) :
    grow (w :: ws) (n + 1) = w :: grow ws n := by
  simp [grow]

theorem grow_nil_succ (n : Nat) : grow [] (n + 1) = 0 :: grow [] n := by
  simp [grow, List.replicate_succ]

/-- Changing a word of grown storage. -/
theorem growModify_eq (f : UInt64 → UInt64) (i : Nat) (ws : List UInt64) :
    ∃ w, (grow ws (i + 1))[i]? = some w ∧
      BitSet.growModify f i ws = (grow ws (i + 1)).set i (f w) := by
  induction i generalizing ws with
  | zero =>
      cases ws with
      | nil => exact ⟨0, rfl, rfl⟩
      | cons w ws =>
          rw [grow_cons]
          exact ⟨w, rfl, by simp [BitSet.growModify, grow]⟩
  | succ i ih =>
      cases ws with
      | nil =>
          obtain ⟨w, hw, hset⟩ := ih []
          rw [grow_nil_succ]
          exact ⟨w, hw, congrArg (List.cons 0) hset⟩
      | cons v ws =>
          obtain ⟨w, hw, hset⟩ := ih ws
          rw [grow_cons]
          exact ⟨w, hw, congrArg (List.cons v) hset⟩

theorem insert_eq (s : BitSet) (k : Nat) : insert s k = pure (s.insert k) := by
  obtain ⟨w, hw, hset⟩ := growModify_eq (· ||| BitSet.wordMask (k % 64)) (k / 64) s.words
  have hlt := (List.getElem?_eq_some_iff.mp hw).1
  simp only [insert, item_eq hw, setItem_eq hlt, pure_bind]
  rw [BitSet.insert, hset]

theorem ofList_eq (ks : List Nat) : ofList ks = pure (BitSet.ofList ks) :=
  foldlM_eq (fun s k _ => insert_eq s k) .empty

theorem changed_or (i : Nat) (vs ws : List UInt64) :
    changed (fun _ v w => pure (v ||| w)) i ws (grow vs ws.length) =
      pure (BitSet.orWords vs ws) := by
  induction ws generalizing i vs with
  | nil =>
      have hvs : grow vs 0 = vs := by simp [grow]
      rw [List.length_nil, hvs]
      cases vs <;> rfl
  | cons w ws ih =>
      cases vs with
      | nil =>
          have hzero : BitSet.orWords [] ws = ws := rfl
          rw [List.length_cons, grow_nil_succ, changed, ih, hzero, pure_bind, pure_bind,
            UInt64.zero_or]
          rfl
      | cons v vs =>
          rw [List.length_cons, grow_cons, changed, ih, pure_bind, pure_bind]
          rfl

theorem changed_andNot (i : Nat) (vs ws : List UInt64) :
    changed (fun _ v w => pure (v &&& ~~~w)) i (ws.take (min vs.length ws.length)) vs =
      pure (BitSet.andNotWords vs ws) := by
  induction ws generalizing i vs with
  | nil => cases vs <;> rfl
  | cons w ws ih =>
      cases vs with
      | nil => rfl
      | cons v vs =>
          have hmin : min (v :: vs).length (w :: ws).length = min vs.length ws.length + 1 := by
            simp only [List.length_cons]
            omega
          rw [hmin, List.take_succ_cons, changed, ih, pure_bind, pure_bind]
          rfl

theorem union_eq (s t : BitSet) : union s t = pure (s.union t) := by
  rw [union, changeAll_zero, changed_or, pure_bind]
  rfl

theorem diff_eq (s t : BitSet) : diff s t = pure (s.diff t) := by
  rw [diff, slice_eq (Nat.zero_le _) (Nat.min_le_right _ _), List.drop_zero, pure_bind,
    changeAll_zero, changed_andNot, pure_bind]
  rfl

end Guarded

end Spillway
