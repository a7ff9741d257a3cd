/-!
# Decimal numerals

Integers are written in base ten without leading zeros, with `-` before a negative one. Reading
takes an optional `+` or `-` and at least one digit and nothing else, so it accepts leading zeros,
and for 64-bit integers it refuses what does not fit.
-/

namespace Spillway.Decimal

/-- The numeral of an integer. -/
def text (n : Int) : String := toString n

/-- The numeral of a 64-bit integer. -/
def text64 (n : Int64) : String := text n.toInt

/-- The value of a list of digits. -/
def readNat? (cs : List Char) : Option Nat :=
  if !cs.isEmpty && cs.all Char.isDigit then some (Nat.ofDigitChars 10 cs 0) else none

/-- The value of a signed numeral. -/
def readInt? : List Char → Option Int
  | '-' :: cs => (readNat? cs).map fun n => -(n : Int)
  | '+' :: cs => (readNat? cs).map Int.ofNat
  | cs => (readNat? cs).map Int.ofNat

/-- The value of a signed numeral that fits in 64 bits. -/
def readInt64? (s : String) : Option Int64 :=
  (readInt? s.toList).bind fun n =>
    if Int64.minValue.toInt ≤ n ∧ n ≤ Int64.maxValue.toInt then some (Int64.ofInt n) else none

/-! ## What is written can be read -/

theorem readNat?_toDigits (n : Nat) : readNat? (Nat.toDigits 10 n) = some n := by
  have hdigits : (Nat.toDigits 10 n).all Char.isDigit = true := by
    rw [List.all_eq_true]
    intro c hc
    exact Nat.isDigit_of_mem_toDigits (by decide) (by decide) hc
  have hne : (Nat.toDigits 10 n).isEmpty = false := by
    rw [List.isEmpty_eq_false_iff]
    exact Nat.toDigits_ne_nil
  rw [readNat?, hdigits, hne]
  simp [Nat.ofDigitChars_ten_toDigits]

/-- Digits start with no sign. -/
theorem readInt?_toDigits (n : Nat) : readInt? (Nat.toDigits 10 n) = some (n : Int) := by
  have hread := readNat?_toDigits n
  cases hd : Nat.toDigits 10 n with
  | nil => exact absurd hd Nat.toDigits_ne_nil
  | cons c cs =>
    have hc : c.isDigit = true :=
      Nat.isDigit_of_mem_toDigits (b := 10) (n := n) (by decide) (by decide) (by rw [hd]; simp)
    rw [hd] at hread
    unfold readInt?
    split
    · rename_i heq
      cases heq
      exact absurd hc (by decide)
    · rename_i heq
      cases heq
      exact absurd hc (by decide)
    · rw [hread]
      rfl

theorem readInt?_text (n : Int) : readInt? (text n).toList = some n := by
  cases n with
  | ofNat n =>
    show readInt? (Nat.repr n).toList = _
    rw [Nat.toList_repr]
    exact readInt?_toDigits n
  | negSucc n =>
    show readInt? ("-" ++ Nat.repr (n + 1)).toList = _
    have hminus : "-".toList = ['-'] := by decide
    rw [String.toList_append, Nat.toList_repr, hminus, List.singleton_append, readInt?,
      readNat?_toDigits]
    rfl

theorem readInt64?_text64 (n : Int64) : readInt64? (text64 n) = some n := by
  rw [readInt64?, text64, readInt?_text]
  simp only [Option.bind_some]
  rw [if_pos ⟨n.minValue_le_toInt, n.toInt_le⟩, Int64.ofInt_toInt]

end Spillway.Decimal
