import Spillway.BitSet.Basic
import Spillway.Wire

/-!
# Banks of sets

A bank is a fixed number of sets that are stored apart. An `Action` changes one set of a bank,
perhaps with the help of another (or of the same one), and may answer something about it. Keys of
actions are integers; a negative key is refused, and `Action.run` says what has been done by then.
-/

namespace Spillway

namespace BitSet

/-- The bytes in which a set is logged: absent when nothing has been stored, else its members. -/
def wire (s : BitSet) : List UInt8 :=
  if s.hasStorage then Wire.list (s.toList.map Wire.nat) else Wire.absent

/-- Add integer keys in turn, up to the first negative one, which is returned. -/
def insertKeys (s : BitSet) : List Int → BitSet × Option Int
  | [] => (s, none)
  | k :: ks => if k < 0 then (s, some k) else (s.insert k.toNat).insertKeys ks

/-- The members up to and including the first at which `n` have been collected. -/
def firstKeys (n : Int) (s : BitSet) : List Nat :=
  s.visit (fun keys k => (keys ++ [k], decide ((keys.length + 1 : Int) < n))) []

end BitSet

/-- A fixed number of sets. -/
abbrev Bank (n : Nat) := Vector BitSet n

namespace Bank

/-- A bank of sets without members and without storage. -/
def empty (n : Nat) : Bank n := Vector.replicate n BitSet.empty

/-- One step on a bank: every action names the set that it changes or asks. -/
inductive Action (n : Nat) where
  | make (s : Fin n) (keys : List Int)
  | copy (s from_ : Fin n)
  | insert (s : Fin n) (key : Int)
  | erase (s : Fin n) (key : Int)
  | insertMany (s : Fin n) (keys : List Int)
  | union (s other : Fin n)
  | diff (s other : Fin n)
  | clear (s : Fin n)
  | contains (s : Fin n) (key : Int)
  | intersects (s other : Fin n)
  | equal (s other : Fin n)
  | firstKeys (s : Fin n) (count : Int)
  | wire (s : Fin n)

/-- What an action answers. -/
inductive Answer where
  | done
  | flag (b : Bool)
  | keys (ks : List Nat)
  | bytes (bs : List UInt8)
  | negativeKey (key : Int)
  deriving DecidableEq, Repr

/-- Answer with a non-negative key, or refuse a negative one. -/
def withKey (bank : Bank n) (key : Int) (f : Nat → Bank n × Answer) : Bank n × Answer :=
  if key < 0 then (bank, .negativeKey key) else f key.toNat

namespace Action

/-- The set that an action is about. -/
def slot : Action n → Fin n
  | make s _ | copy s _ | insert s _ | erase s _ | insertMany s _ | union s _ | diff s _ | clear s
  | contains s _ | intersects s _ | equal s _ | firstKeys s _ | wire s => s

/-- Do one step. Of several keys, those before a negative one are added; a set that was to be made
afresh stays as it was. -/
def run (bank : Bank n) : Action n → Bank n × Answer
  | make s keys =>
    match BitSet.empty.insertKeys keys with
    | (made, none) => (bank.set s made, .done)
    | (_, some key) => (bank, .negativeKey key)
  | copy s from_ => (bank.set s bank[from_], .done)
  | insert s key => bank.withKey key fun k => (bank.set s (bank[s].insert k), .done)
  | erase s key => bank.withKey key fun k => (bank.set s (bank[s].erase k), .done)
  | insertMany s keys =>
    match bank[s].insertKeys keys with
    | (grown, none) => (bank.set s grown, .done)
    | (grown, some key) => (bank.set s grown, .negativeKey key)
  | union s other => (bank.set s (bank[s].union bank[other]), .done)
  | diff s other => (bank.set s (bank[s].diff bank[other]), .done)
  | clear s => (bank.set s bank[s].clear, .done)
  | contains s key => bank.withKey key fun k => (bank, .flag (bank[s].contains k))
  | intersects s other => (bank, .flag (bank[s].intersects bank[other]))
  | equal s other => (bank, .flag (bank[s].equal bank[other]))
  | firstKeys s count => (bank, .keys (bank[s].firstKeys count))
  | wire s => (bank, .bytes bank[s].wire)

end Action

end Bank

end Spillway
