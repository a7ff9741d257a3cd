import Mathlib.Data.Finset.Card
import Mathlib.Data.Finset.Dedup
import Mathlib.Data.Finset.Lattice.Basic
import Mathlib.Data.Finset.SDiff
import Mathlib.Logic.Function.Basic
import Spillway.BitSet.Bank
import Spillway.Proofs.BitSet.Scan

/-!
# Sets of bits are finite sets

Every operation on a set does to its members what the operation of the same name does to a finite
set (`HasMembers`), and all that is read off the set is read off its members (`Reads`), whatever its
storage looks like.

Each action on a bank has a counterpart on a family of finite sets (`Action.apply`). One action
whose keys are not negative keeps every set of the bank at the members of its counterpart
(`Action.run_represents`), and so does every sequence of them (`represents_after`).
-/

namespace Spillway

namespace BitSet

/-! ## One set -/

/-- The members of the set `b` are those of the finite set `m`. -/
def HasMembers (b : BitSet) (m : Finset Nat) : Prop := ∀ k, k ∈ b ↔ k ∈ m

namespace HasMembers

variable {b c : BitSet} {m l : Finset Nat}

theorem empty : BitSet.empty.HasMembers ∅ := by
  intro k
  simp [mem_iff]

theorem ofList (keys : List Nat) : (BitSet.ofList keys).HasMembers keys.toFinset := by
  intro k
  rw [mem_ofList, List.mem_toFinset]

theorem insert (h : b.HasMembers m) (key : Nat) : (b.insert key).HasMembers (Insert.insert key m) := by
  intro k
  rw [mem_iff, contains_insert, Bool.or_eq_true, decide_eq_true_eq, ← mem_iff, h k,
    Finset.mem_insert, eq_comm]

theorem insertMany (h : b.HasMembers m) (keys : List Nat) :
    (b.insertMany keys).HasMembers (m ∪ keys.toFinset) := by
  intro k
  rw [mem_insertMany, h k, Finset.mem_union, List.mem_toFinset, or_comm]

theorem erase (h : b.HasMembers m) (key : Nat) : (b.erase key).HasMembers (m.erase key) := by
  intro k
  rw [mem_iff, contains_erase, Bool.and_eq_true, Bool.not_eq_true', decide_eq_false_iff_not,
    ← mem_iff, h k, Finset.mem_erase, and_comm, ne_comm]

theorem union (hb : b.HasMembers m) (hc : c.HasMembers l) : (b.union c).HasMembers (m ∪ l) := by
  intro k
  rw [mem_iff, contains_union, Bool.or_eq_true, ← mem_iff, ← mem_iff, hb k, hc k, Finset.mem_union]

theorem diff (hb : b.HasMembers m) (hc : c.HasMembers l) : (b.diff c).HasMembers (m \ l) := by
  intro k
  rw [mem_iff, contains_diff, Bool.and_eq_true, Bool.not_eq_true', Bool.eq_false_iff, ← mem_iff,
    hb k, Finset.mem_sdiff]
  exact and_congr_right fun _ => not_congr (hc k)

theorem clear (b : BitSet) : b.clear.HasMembers ∅ := by
  intro k
  simp [mem_iff]

end HasMembers

/-- All that can be read off the set `b` is what the finite set `m` says. -/
structure Reads (b : BitSet) (m : Finset Nat) : Prop where
  contains : ∀ k, b.contains k = true ↔ k ∈ m
  ascending : b.toList.Pairwise (· < ·)
  toList : ∀ k, k ∈ b.toList ↔ k ∈ m
  size : b.size = m.card
  isEmpty : b.isEmpty = true ↔ m = ∅
  scan : ∀ (σ : Type) (f : σ → Nat → σ × Bool) (st : σ), b.scan f st = b.visit f st
  visit : ∀ (σ : Type) (f : σ → Nat → σ × Bool) (st : σ),
    ∃ ks, Visits f st b.toList ks ∧ b.visit f st = seen f st ks

variable {b c : BitSet} {m l : Finset Nat}

theorem HasMembers.size (h : b.HasMembers m) : b.size = m.card := by
  have hm : m = b.toList.toFinset := by
    ext k
    rw [List.mem_toFinset, mem_toList, h k]
  rw [hm, List.toFinset_card_of_nodup b.nodup_toList, length_toList]

theorem HasMembers.isEmpty (h : b.HasMembers m) : b.isEmpty = true ↔ m = ∅ := by
  rw [isEmpty_iff, Finset.eq_empty_iff_forall_notMem]
  exact forall_congr' fun k => not_congr (h k)

theorem HasMembers.reads (h : b.HasMembers m) : b.Reads m where
  contains := h
  ascending := b.pairwise_toList
  toList k := mem_toList.trans (h k)
  size := h.size
  isEmpty := h.isEmpty
  scan _ f st := scan_eq_visit f st b
  visit _ _ st := exists_visits st b.toList

theorem HasMembers.equal (hb : b.HasMembers m) (hc : c.HasMembers l) : b.equal c = true ↔ m = l := by
  rw [equal_iff, Finset.ext_iff]
  exact forall_congr' fun k => iff_congr (hb k) (hc k)

theorem HasMembers.intersects (hb : b.HasMembers m) (hc : c.HasMembers l) :
    b.intersects c = true ↔ (m ∩ l).Nonempty := by
  rw [intersects_iff]
  refine exists_congr fun k => ?_
  rw [Finset.mem_inter, hb k, hc k]

theorem insertKeys_of_nonneg {s : BitSet} {keys : List Int} (h : ∀ k ∈ keys, 0 ≤ k) :
    s.insertKeys keys = (s.insertMany (keys.map Int.toNat), none) := by
  induction keys generalizing s with
  | nil => rfl
  | cons k keys ih =>
      have hk : ¬ k < 0 := by
        have := h k List.mem_cons_self
        omega
      rw [insertKeys, if_neg hk, ih fun l hl => h l (List.mem_cons_of_mem _ hl)]
      rfl

end BitSet

namespace Bank

variable {n : Nat}

/-! ## Actions on finite sets -/

/-- The keys that an action adds, removes or asks for. -/
def Action.keys : Action n → List Int
  | make _ keys | insertMany _ keys => keys
  | insert _ key | erase _ key | contains _ key => [key]
  | _ => []

/-- No key of the action is negative. -/
def Action.Natural (a : Action n) : Prop := ∀ k ∈ a.keys, 0 ≤ k

instance (a : Action n) : Decidable a.Natural := inferInstanceAs (Decidable (∀ k ∈ a.keys, 0 ≤ k))

/-- The finite set of some keys. -/
def keySet (keys : List Int) : Finset Nat := (keys.map Int.toNat).toFinset

/-- What an action does to a family of finite sets. Questions change nothing. -/
def Action.apply (M : Fin n → Finset Nat) : Action n → Fin n → Finset Nat
  | make s keys => Function.update M s (keySet keys)
  | copy s from_ => Function.update M s (M from_)
  | insert s key => Function.update M s (Insert.insert key.toNat (M s))
  | erase s key => Function.update M s ((M s).erase key.toNat)
  | insertMany s keys => Function.update M s (M s ∪ keySet keys)
  | union s other => Function.update M s (M s ∪ M other)
  | diff s other => Function.update M s (M s \ M other)
  | clear s => Function.update M s ∅
  | _ => M

/-! ## One action -/

/-- Every set of the bank has the members of its finite set. -/
def Represents (bank : Bank n) (M : Fin n → Finset Nat) : Prop := ∀ s, (bank.get s).HasMembers (M s)

variable {bank : Bank n} {M : Fin n → Finset Nat} {a : Action n}

theorem Represents.set (h : bank.Represents M) {s : Fin n} {b : BitSet} {m : Finset Nat}
    (hb : b.HasMembers m) : Represents (bank.set s b s.isLt) (Function.update M s m) := by
  intro s'
  by_cases hs : s = s'
  · subst hs
    have hget : (bank.set s b s.isLt).get s = b := Vector.getElem_set_self s.isLt
    rw [hget, Function.update_self]
    exact hb
  · have hget : (bank.set s b s.isLt).get s' = bank.get s' :=
      Vector.getElem_set_ne s.isLt s'.isLt fun heq => hs (Fin.ext heq)
    rw [hget, Function.update_of_ne (Ne.symm hs)]
    exact h s'

theorem withKey_of_nonneg {key : Int} (h : 0 ≤ key) (f : Nat → Bank n × Answer) :
    bank.withKey key f = f key.toNat := by
  rw [withKey, if_neg (Int.not_lt.mpr h)]

namespace Action

theorem Natural.key {key : Int} (ha : a.Natural) (h : a.keys = [key]) : 0 ≤ key :=
  ha key (h ▸ List.mem_singleton.mpr rfl)

/-- One action without negative keys keeps the bank at its finite sets. -/
theorem run_represents (h : bank.Represents M) (ha : a.Natural) :
    (a.run bank).1.Represents (a.apply M) := by
  cases a with
  | make s keys =>
      have hkeys : ∀ k ∈ keys, 0 ≤ k := ha
      rw [run, BitSet.insertKeys_of_nonneg hkeys]
      exact h.set (.ofList (keys.map Int.toNat))
  | copy s other => exact h.set (h other)
  | insert s key =>
      rw [run, withKey_of_nonneg (ha.key rfl)]
      exact h.set ((h s).insert key.toNat)
  | erase s key =>
      rw [run, withKey_of_nonneg (ha.key rfl)]
      exact h.set ((h s).erase key.toNat)
  | insertMany s keys =>
      have hkeys : ∀ k ∈ keys, 0 ≤ k := ha
      rw [run, BitSet.insertKeys_of_nonneg hkeys]
      exact h.set ((h s).insertMany (keys.map Int.toNat))
  | union s other => exact h.set ((h s).union (h other))
  | diff s other => exact h.set ((h s).diff (h other))
  | clear s => exact h.set (.clear (bank.get s))
  | contains s key =>
      rw [run, withKey_of_nonneg (ha.key rfl)]
      exact h
  | intersects | equal | firstKeys | wire => exact h

/-- Nor is it refused. -/
theorem run_ne_negativeKey (ha : a.Natural) (key : Int) : (a.run bank).2 ≠ .negativeKey key := by
  cases a with
  | make s keys | insertMany s keys =>
      have hkeys : ∀ k ∈ keys, 0 ≤ k := ha
      rw [run, BitSet.insertKeys_of_nonneg hkeys]
      exact Answer.noConfusion
  | insert s k | erase s k | contains s k =>
      rw [run, withKey_of_nonneg (ha.key rfl)]
      exact Answer.noConfusion
  | copy | union | diff | clear | intersects | equal | firstKeys | wire =>
      exact Answer.noConfusion

end Action

/-! ## Sequences of actions -/

/-- The bank after some actions. -/
def after (bank : Bank n) (actions : List (Action n)) : Bank n :=
  actions.foldl (fun bank a => (a.run bank).1) bank

/-- The family of finite sets after some actions. -/
def applyAll (M : Fin n → Finset Nat) (actions : List (Action n)) : Fin n → Finset Nat :=
  actions.foldl Action.apply M

theorem represents_empty (n : Nat) : (empty n).Represents fun _ => ∅ := by
  intro s
  have hget : (empty n).get s = BitSet.empty := Vector.getElem_replicate s.isLt
  rw [hget]
  exact .empty

theorem represents_after (h : bank.Represents M) {actions : List (Action n)}
    (hactions : ∀ a ∈ actions, a.Natural) : (bank.after actions).Represents (applyAll M actions) := by
  induction actions generalizing bank M with
  | nil => exact h
  | cons a actions ih =>
      have ha : a.Natural := hactions a List.mem_cons_self
      exact ih (Action.run_represents h ha) fun b hb => hactions b (List.mem_cons_of_mem _ hb)

/-- All that can be read off the bank is what the finite sets say, and it takes every action without
negative keys. -/
structure Refines (bank : Bank n) (M : Fin n → Finset Nat) : Prop where
  reads : ∀ s, (bank.get s).Reads (M s)
  equal : ∀ s t, (bank.get s).equal (bank.get t) = true ↔ M s = M t
  intersects : ∀ s t, (bank.get s).intersects (bank.get t) = true ↔ (M s ∩ M t).Nonempty
  answers : ∀ (a : Action n), a.Natural → ∀ key, (a.run bank).2 ≠ .negativeKey key

theorem Represents.refines (h : bank.Represents M) : bank.Refines M where
  reads s := (h s).reads
  equal s t := (h s).equal (h t)
  intersects s t := (h s).intersects (h t)
  answers _ ha key := Action.run_ne_negativeKey ha key

/-- After any sequence of actions without negative keys, on any number of sets that are empty at
first, the sets are the finite sets that the same actions make. -/
theorem refines_after {actions : List (Action n)} (hactions : ∀ a ∈ actions, a.Natural) :
    ((empty n).after actions).Refines (applyAll (fun _ => ∅) actions) :=
  (represents_after (represents_empty n) hactions).refines

/-- Two sets are made alike on different ways, and the second one keeps storage for a number that it
no longer has. -/
def leftover : List (Action 2) :=
  [.make 0 [64, 1, 63], .union 0 0, .copy 1 0, .insert 1 200, .diff 0 0, .insertMany 0 [1, 63, 64],
    .erase 1 200]

theorem refines_after_leftover : (∀ a ∈ leftover, a.Natural) ∧
    ((empty 2).after leftover).get 0 ≠ ((empty 2).after leftover).get 1 ∧
    (((empty 2).after leftover).get 0).equal (((empty 2).after leftover).get 1) = true ∧
    (((empty 2).after leftover).get 1).Reads {1, 63, 64} := by
  have hnatural : ∀ a ∈ leftover, a.Natural := by decide
  have hfirst : applyAll (fun _ => ∅) leftover 0 = {1, 63, 64} := by decide
  have hsecond : applyAll (fun _ => ∅) leftover 1 = {1, 63, 64} := by decide
  have hrefines := refines_after hnatural
  refine ⟨hnatural, by decide +kernel, ?_, hsecond ▸ hrefines.reads 1⟩
  exact (hrefines.equal 0 1).mpr (hfirst.trans hsecond.symm)

end Bank

end Spillway
