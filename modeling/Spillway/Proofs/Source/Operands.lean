import Spillway.Source.Reader
import Spillway.Proofs.Source.Lexemes

/-!
# Operands in texts

The written form of a readable operand is one atom (`Operand.Readable.isAtom`), and reading the atom
gives the operand back (`Tree.operand_text`, `Tree.callee_text`). Registers, numbers and labels are
always told apart; a variable is readable if its name is an atom that is taken for none of them.
Conversely, what an atom is read as is readable (`Tree.readable_operand`, `Tree.readable_callee`).
-/

namespace Spillway

/-! ## ASCII strings -/

namespace Bytes

/-- A string of ASCII characters has one byte for each. -/
theorem ofString_of_ascii {s : String} (h : ∀ c ∈ s.toList, c.toNat < 128) :
    ofString s = s.toList.map fun c => UInt8.ofNat c.toNat := by
  unfold ofString
  generalize s.toList = cs at h ⊢
  induction cs with
  | nil => rfl
  | cons c cs ih =>
      rw [List.forall_mem_cons] at h
      have hc : String.utf8EncodeChar c = [UInt8.ofNat c.toNat] := by
        unfold String.utf8EncodeChar
        exact if_pos (show c.toNat ≤ 127 by omega)
      rw [List.flatMap_cons, List.map_cons, ih h.2, hc]
      rfl

theorem toAscii_ofString {s : String} (h : ∀ c ∈ s.toList, c.toNat < 128) :
    toAscii (ofString s) = s := by
  unfold toAscii
  rw [ofString_of_ascii h, List.map_map]
  have hcomp : ∀ c ∈ s.toList,
      ((fun b : UInt8 => Char.ofNat b.toNat) ∘ fun c : Char => UInt8.ofNat c.toNat) c = c := by
    intro c hc
    have hlt : c.toNat < 256 := Nat.lt_trans (h c hc) (by decide)
    show Char.ofNat (UInt8.ofNat c.toNat).toNat = c
    rw [UInt8.toNat_ofNat_of_lt' hlt, Char.ofNat_toNat]
  rw [List.map_congr_left hcomp, List.map_id', String.ofList_toList]

end Bytes

/-! ## Numerals -/

namespace Decimal

theorem isDigitByte_of_isDigit {c : Char} (h : c.isDigit = true) :
    c.toNat < 128 ∧ isDigitByte (UInt8.ofNat c.toNat) = true := by
  have hbytes : ∀ n < 58, 48 ≤ n → n < 128 ∧ isDigitByte (UInt8.ofNat n) = true := by decide
  rw [Char.isDigit, Bool.and_eq_true, decide_eq_true_eq, decide_eq_true_eq] at h
  refine hbytes c.toNat ?_ ?_
  · exact Nat.lt_succ_of_le (UInt32.le_iff_toNat_le.mp h.2)
  · exact UInt32.le_iff_toNat_le.mp h.1

theorem isDigit_of_mem_toDigits {n : Nat} {c : Char} (hc : c ∈ Nat.toDigits 10 n) :
    c.isDigit = true :=
  Nat.isDigit_of_mem_toDigits (by decide) (by decide) hc

theorem ascii_repr (n : Nat) : ∀ c ∈ (Nat.repr n).toList, c.toNat < 128 := by
  intro c hc
  rw [Nat.toList_repr] at hc
  exact (isDigitByte_of_isDigit (isDigit_of_mem_toDigits hc)).1

/-- The numeral of a natural number is made of digits. -/
theorem ofString_repr (n : Nat) : ∃ b a, Bytes.ofString (Nat.repr n) = b :: a ∧
    ∀ c ∈ b :: a, isDigitByte c = true := by
  rw [Bytes.ofString_of_ascii (ascii_repr n), Nat.toList_repr]
  have hdigits : ∀ b ∈ (Nat.toDigits 10 n).map fun c => UInt8.ofNat c.toNat,
      isDigitByte b = true := by
    intro b hb
    obtain ⟨c, hc, rfl⟩ := List.mem_map.mp hb
    exact (isDigitByte_of_isDigit (isDigit_of_mem_toDigits hc)).2
  cases hd : Nat.toDigits 10 n with
  | nil => exact absurd hd Nat.toDigits_ne_nil
  | cons c cs =>
      rw [hd] at hdigits
      exact ⟨_, _, rfl, hdigits⟩

/-- A numeral is an atom. -/
theorem isAtom_text (n : Int) : Token.IsAtom (text n) := by
  cases n with
  | ofNat n =>
      -- digits continue an identifier
      obtain ⟨b, a, hbytes, hdigits⟩ := ofString_repr n
      have hident : ∀ c ∈ b :: a, isIdentByte c = true := by
        intro c hc
        simp [isIdentByte, hdigits c hc]
      rw [List.forall_mem_cons] at hident
      show Token.IsAtom (Nat.repr n)
      rw [← Bytes.toAscii_ofString (ascii_repr n), hbytes]
      refine (Token.AtomBytes.ident ?_ (Token.identLength_of_forall hident.2)).isAtom
      rw [hident.1, Bool.or_true]
  | negSucc n =>
      obtain ⟨b, a, hbytes, hdigits⟩ := ofString_repr (n + 1)
      have hminus : Bytes.ofString ("-" ++ Nat.repr (n + 1)) = '-'.toUInt8 :: b :: a := by
        rw [Bytes.ofString_append, hbytes]
        rfl
      have hascii : ∀ c ∈ ("-" ++ Nat.repr (n + 1)).toList, c.toNat < 128 := by
        intro c hc
        rw [String.toList_append, List.mem_append] at hc
        rcases hc with hc | hc
        · rw [List.mem_singleton.mp hc]
          decide
        · exact ascii_repr _ c hc
      show Token.IsAtom ("-" ++ Nat.repr (n + 1))
      rw [← Bytes.toAscii_ofString hascii, hminus]
      exact (Token.AtomBytes.numeral (by decide) (by simp) hdigits).isAtom

end Decimal

/-! ## Registers -/

namespace Reg

variable {r : Reg}

/-- What can be checked of all machine registers. -/
theorem forall_machine {P : Reg → Prop} (h : ∀ n < 16, P ⟨Int.ofNat n⟩) (hr : r.isMachine = true) :
    P r := by
  obtain ⟨code⟩ := r
  simp only [isMachine, Bool.and_eq_true, decide_eq_true_eq] at hr
  cases code with
  | ofNat n => exact h n (Int.ofNat_lt.mp hr.2)
  | negSucc n => omega

theorem ofName?_text (hr : r.isMachine = true) : ofName? r.text = some r := by
  exact forall_machine (P := fun r => ofName? r.text = some r) (by decide) hr

theorem isAtom_text (hr : r.isMachine = true) : Token.IsAtom r.text := by
  exact forall_machine (P := fun r => Token.IsAtom r.text) (by decide) hr

theorem isMachine_of_ofName? {s : String} (h : ofName? s = some r) : r.isMachine = true := by
  unfold ofName? at h
  cases hn : machineNames.idxOf? s with
  | none =>
      rw [hn] at h
      cases h
  | some n =>
      rw [hn] at h
      cases h
      have hlt : n < 16 := (List.idxOf?_eq_some_iff.mp hn).1
      simp only [isMachine, Bool.and_eq_true, decide_eq_true_eq]
      omega

theorem ofName?_eq_none {s : String} : ofName? s = none ↔ s ∉ machineNames := by
  rw [← List.idxOf?_eq_none_iff]
  unfold ofName?
  cases machineNames.idxOf? s <;> simp

end Reg

/-! ## Readable operands -/

/-- The name of the variable is an atom and taken for nothing else. -/
structure Var.Readable (v : Var) : Prop where
  atom : Token.IsAtom v.name
  notLabel : v.name.toList.head? ≠ some ':'
  notReg : Reg.ofName? v.name = none
  notNumber : Decimal.readInt64? v.name = none

/-- The label is an atom with its colon. -/
def Label.Readable (l : Label) : Prop := Token.IsAtom l.text

namespace Operand

/-- The operand can be written and read. -/
def Readable : Operand → Prop
  | reg r => r.isMachine = true
  | var v => v.Readable
  | num _ => True
  | label l => l.Readable
  | runtime name => name ∈ runtimeNames
  | hole => False

variable {x : Operand}

theorem Readable.isAtom (h : x.Readable) : Token.IsAtom x.text := by
  cases x with
  | reg r => exact Reg.isAtom_text h
  | var v => exact h.atom
  | num n => exact Decimal.isAtom_text n.toInt
  | label l => exact h
  | runtime name =>
      have hnames : ∀ name ∈ runtimeNames, Token.IsAtom name := by decide
      exact hnames name h
  | hole => cases h

end Operand

theorem Label.toList_text (l : Label) : l.text.toList = ':' :: l.name.toList := by
  rw [Label.text, String.toList_append]
  rfl

/-- What starts with a colon is no number. -/
theorem Decimal.readInt64?_of_colon {s : String} {cs : List Char} (h : s.toList = ':' :: cs) :
    readInt64? s = none := by
  have hread : readInt? (':' :: cs) = none := by
    simp [readInt?, readNat?, show (':' : Char).isDigit = false from rfl]
  rw [readInt64?, h, hread]
  rfl

theorem Decimal.ofName?_text64 (n : Int64) : Reg.ofName? (text64 n) = none := by
  rw [Reg.ofName?_eq_none]
  intro hmem
  have hnames : ∀ s ∈ Reg.machineNames, readInt64? s = none := by decide
  have hread := readInt64?_text64 n
  rw [hnames _ hmem] at hread
  cases hread

theorem Label.ofName?_text (l : Label) : Reg.ofName? l.text = none := by
  rw [Reg.ofName?_eq_none]
  intro hmem
  have hnames : ∀ s ∈ Reg.machineNames, s.toList.head? ≠ some ':' := by decide
  refine hnames _ hmem ?_
  rw [l.toList_text]
  rfl

namespace Tree

variable {x : Operand}

/-- Reading the text of an operand gives the operand back. -/
theorem operand_text (hx : x.Readable) (hruntime : ∀ name, x ≠ .runtime name) (o : Nat) :
    (atom o x.text).operand = x := by
  cases x with
  | reg r => simp only [operand, Operand.text, Reg.ofName?_text hx]
  | var v =>
      have hcolon : ∀ name, v.name.toList ≠ ':' :: name := by
        intro name h
        exact hx.notLabel (by rw [h]; rfl)
      simp only [operand, Operand.text, hx.notReg, hx.notNumber]
  | num n =>
      have hcolon : ∀ name, (Decimal.text64 n).toList ≠ ':' :: name := by
        intro name h
        have hread := Decimal.readInt64?_text64 n
        rw [Decimal.readInt64?_of_colon h] at hread
        cases hread
      simp only [operand, Operand.text, Decimal.ofName?_text64, Decimal.readInt64?_text64]
  | label l =>
      simp only [operand, Operand.text, l.ofName?_text, l.toList_text, String.ofList_toList]
  | runtime name => exact absurd rfl (hruntime name)
  | hole => cases hx

/-- The same where a callee is expected, unless a variable is called like a runtime function. -/
theorem callee_text (hx : x.Readable) (hvar : ∀ v, x = .var v → v.name ∉ runtimeNames) (o : Nat) :
    (atom o x.text).callee = x := by
  have hplain : x.text ∉ runtimeNames → (∀ name, x ≠ .runtime name) →
      (atom o x.text).callee = x := by
    intro hnot hruntime
    show (if x.text ∈ runtimeNames then .runtime x.text else (atom o x.text).operand) = x
    rw [if_neg hnot, operand_text hx hruntime]
  cases x with
  | runtime name => exact if_pos hx
  | var v => exact hplain (hvar v rfl) (by simp)
  | reg r =>
      refine hplain ?_ (by simp)
      exact Reg.forall_machine (P := fun r => r.text ∉ runtimeNames) (by decide) hx
  | num n =>
      refine hplain (fun hmem => ?_) (by simp)
      have hnames : ∀ s ∈ runtimeNames, Decimal.readInt64? s = none := by decide
      have hread := hnames _ hmem
      rw [Operand.text, Decimal.readInt64?_text64] at hread
      cases hread
  | label l =>
      refine hplain (fun hmem => ?_) (by simp)
      have hnames : ∀ s ∈ runtimeNames, s.toList.head? ≠ some ':' := by decide
      refine hnames _ hmem ?_
      rw [Operand.text, l.toList_text]
      rfl
  | hole => cases hx

/-- Every atom stands for a readable operand. -/
theorem readable_operand {a : String} (ha : Token.IsAtom a) (o : Nat) :
    (atom o a).operand.Readable := by
  unfold operand
  simp only
  split
  · rename_i r hr
    exact Reg.isMachine_of_ofName? hr
  · rename_i hreg
    split
    · rename_i name hname
      have htext : (Label.mk (String.ofList name)).text = a := by
        apply String.toList_injective
        rw [Label.toList_text, String.toList_ofList, hname]
      show Token.IsAtom _
      rw [htext]
      exact ha
    · rename_i hcolon
      split
      · trivial
      · rename_i hnumber
        refine ⟨ha, fun hhead => ?_, hreg, hnumber⟩
        obtain ⟨cs, hcs⟩ := List.head?_eq_some_iff.mp hhead
        exact hcolon cs hcs

theorem readable_callee {a : String} (ha : Token.IsAtom a) (o : Nat) :
    (atom o a).callee.Readable := by
  show (if a ∈ runtimeNames then .runtime a else (atom o a).operand : Operand).Readable
  split
  · assumption
  · exact readable_operand ha o

end Tree

end Spillway
