import Spillway.Proofs.Source.RoundTrip

/-!
# Programs named by identifiers

An identifier is made of letters, digits, underscores and hyphens, and a hyphen stands right before
a letter or an underscore (`IsIdentifier`). Cutting a text does not end inside of one
(`IsIdentifier.identLength`), so it is an atom after the colon of a label
(`IsIdentifier.label_readable`), and on its own unless it starts with a hyphen
(`Var.Identified.readable`).

Nothing else can go wrong for a program whose names are identifiers, if no variable is called like
something that is read in its place: its text is read as the program
(`Program.parse_text_of_identified`).
-/

namespace Spillway

/-! ## Identifiers -/

/-- A letter or an underscore. -/
def isLetterChar (c : Char) : Bool :=
  ('a' ≤ c && c ≤ 'z') || ('A' ≤ c && c ≤ 'Z') || c == '_'

/-- A name of letters, digits, underscores, and hyphens right before a letter or an underscore. -/
structure IsIdentifier (name : String) : Prop where
  nonempty : name ≠ ""
  chars : ∀ c ∈ name.toList, isLetterChar c = true ∨ c.isDigit = true ∨ c = '-'
  hyphens : ∀ n < name.toList.length, name.toList[n]? = some '-' →
    (name.toList[n + 1]?).any isLetterChar = true

/-- The test for identifiers. -/
def isIdentifier (name : String) : Bool :=
  name != "" && name.toList.all (fun c => isLetterChar c || c.isDigit || c == '-') &&
    (List.range name.toList.length).all fun n =>
      name.toList[n]? != some '-' || (name.toList[n + 1]?).any isLetterChar

theorem isIdentifier_iff {name : String} : isIdentifier name = true ↔ IsIdentifier name := by
  simp only [isIdentifier, Bool.and_eq_true, Bool.or_eq_true, bne_iff_ne, List.all_eq_true,
    beq_iff_eq, List.mem_range, or_assoc]
  constructor
  · rintro ⟨⟨hne, hchars⟩, hhyphens⟩
    exact ⟨hne, hchars, fun n hn hget => (hhyphens n hn).resolve_left (fun hnot => hnot hget)⟩
  · intro h
    refine ⟨⟨h.nonempty, h.chars⟩, fun n hn => ?_⟩
    by_cases hget : name.toList[n]? = some '-'
    · exact .inr (h.hyphens n hn hget)
    · exact .inl hget

instance (name : String) : Decidable (IsIdentifier name) :=
  decidable_of_iff (isIdentifier name = true) isIdentifier_iff

/-! ## Their bytes -/

/-- What can be checked of all ASCII characters. -/
theorem forall_ascii {P : Char → Prop} (h : ∀ n < 128, P (Char.ofNat n)) {c : Char}
    (hc : c.toNat < 128) : P c := by
  have hchar := h c.toNat hc
  rwa [Char.ofNat_toNat] at hchar

theorem isLetterChar_lt {c : Char} (h : isLetterChar c = true) : c.toNat < 128 := by
  simp only [isLetterChar, Bool.or_eq_true, Bool.and_eq_true, decide_eq_true_eq, beq_iff_eq] at h
  rcases h with (⟨_, hle⟩ | ⟨_, hle⟩) | rfl
  · have hle : c.toNat ≤ 122 := hle
    omega
  · have hle : c.toNat ≤ 90 := hle
    omega
  · decide

theorem isLetterByte_of_isLetterChar {c : Char} (h : isLetterChar c = true) :
    isLetterByte (UInt8.ofNat c.toNat) = true := by
  have hascii : ∀ n < 128, isLetterChar (Char.ofNat n) = true →
      isLetterByte (UInt8.ofNat (Char.ofNat n).toNat) = true := by decide +kernel
  let P (c : Char) : Prop := isLetterChar c = true → isLetterByte (UInt8.ofNat c.toNat) = true
  exact forall_ascii (P := P) hascii (isLetterChar_lt h) h

/-- A character other than a hyphen continues an identifier. -/
theorem isIdentByte_of_char {c : Char} (h : isLetterChar c = true ∨ c.isDigit = true) :
    isIdentByte (UInt8.ofNat c.toNat) = true := by
  unfold isIdentByte
  rcases h with h | h
  · rw [isLetterByte_of_isLetterChar h, Bool.true_or]
  · rw [(Decimal.isDigitByte_of_isDigit h).2, Bool.or_true]

namespace IsIdentifier

variable {name : String}

theorem ascii (h : IsIdentifier name) : ∀ c ∈ name.toList, c.toNat < 128 := by
  intro c hc
  rcases h.chars c hc with hletter | hdigit | rfl
  · exact isLetterChar_lt hletter
  · exact (Decimal.isDigitByte_of_isDigit hdigit).1
  · decide

/-- All of these characters continue an identifier. -/
theorem identLength_chars {cs : List Char}
    (hchars : ∀ c ∈ cs, isLetterChar c = true ∨ c.isDigit = true ∨ c = '-')
    (hhyphens : ∀ n < cs.length, cs[n]? = some '-' → (cs[n + 1]?).any isLetterChar = true) :
    Token.identLength (cs.map fun c => UInt8.ofNat c.toNat) = cs.length := by
  induction cs with
  | nil => rfl
  | cons c cs ih =>
      rw [List.forall_mem_cons] at hchars
      have htail := ih hchars.2 fun n hn hget =>
        hhyphens (n + 1) (Nat.succ_lt_succ hn) (by simpa using hget)
      rw [List.map_cons, List.length_cons]
      by_cases hc : c = '-'
      · -- the letter after the hyphen is taken with it, and would have been taken without it
        subst hc
        have hnext := hhyphens 0 (Nat.succ_pos _) rfl
        cases cs with
        | nil => cases hnext
        | cons d ds =>
            have hletter : isLetterByte (UInt8.ofNat d.toNat) = true :=
              isLetterByte_of_isLetterChar hnext
            have hident : isIdentByte (UInt8.ofNat d.toNat) = true :=
              isIdentByte_of_char (.inl hnext)
            rw [List.map_cons, Token.identLength_cons hident] at htail
            rw [List.map_cons, Token.identLength_hyphen (by decide) (by rw [hletter]; rfl)]
            omega
      · have hident : isIdentByte (UInt8.ofNat c.toNat) = true := by
          apply isIdentByte_of_char
          rcases hchars.1 with hletter | hdigit | hyphen
          · exact .inl hletter
          · exact .inr hdigit
          · exact absurd hyphen hc
        rw [Token.identLength_cons hident, htail]

/-- Cutting goes on to the end of an identifier. -/
theorem identLength (h : IsIdentifier name) :
    Token.identLength (Bytes.ofString name) = (Bytes.ofString name).length := by
  rw [Bytes.ofString_of_ascii h.ascii, List.length_map]
  exact identLength_chars h.chars h.hyphens

/-- An identifier can be the name of a label. -/
theorem label_readable {l : Label} (h : IsIdentifier l.name) : l.Readable := by
  have hascii : ∀ c ∈ l.text.toList, c.toNat < 128 := by
    rw [l.toList_text, List.forall_mem_cons]
    exact ⟨by decide, h.ascii⟩
  have hbytes : Bytes.ofString l.text = ':'.toUInt8 :: Bytes.ofString l.name := by
    rw [Label.text, Bytes.ofString_append]
    rfl
  show Token.IsAtom l.text
  rw [← Bytes.toAscii_ofString hascii, hbytes]
  exact (Token.AtomBytes.ident (by decide) h.identLength).isAtom

/-- An identifier is an atom if it does not start with a hyphen. -/
theorem isAtom (h : IsIdentifier name) (hstart : name.toList.head? ≠ some '-') :
    Token.IsAtom name := by
  have hlength := h.identLength
  have hbytes := Bytes.ofString_of_ascii h.ascii
  rw [← Bytes.toAscii_ofString h.ascii]
  cases hcs : name.toList with
  | nil => exact absurd (String.toList_eq_nil_iff.mp hcs) h.nonempty
  | cons c cs =>
      have hc : isLetterChar c = true ∨ c.isDigit = true := by
        rcases h.chars c (by rw [hcs]; exact List.mem_cons_self) with hletter | hdigit | rfl
        · exact .inl hletter
        · exact .inr hdigit
        · rw [hcs] at hstart
          exact absurd rfl hstart
      have hident := isIdentByte_of_char hc
      rw [hbytes, hcs, List.map_cons, Token.identLength_cons hident, List.length_cons] at hlength
      rw [hbytes, hcs, List.map_cons]
      refine (Token.AtomBytes.ident ?_ (Nat.succ.inj hlength)).isAtom
      rw [hident, Bool.or_true]

end IsIdentifier

/-! ## Programs -/

/-- The variable is called by an identifier that can start an operand and is taken for nothing
else. -/
structure Var.Identified (v : Var) : Prop where
  identifier : IsIdentifier v.name
  start : v.name.toList.head? ≠ some '-'
  notReg : v.name ∉ Reg.machineNames
  notNumber : Decimal.readInt64? v.name = none

instance (v : Var) : Decidable v.Identified :=
  decidable_of_iff (IsIdentifier v.name ∧ v.name.toList.head? ≠ some '-' ∧
      v.name ∉ Reg.machineNames ∧ Decimal.readInt64? v.name = none)
    ⟨fun h => ⟨h.1, h.2.1, h.2.2.1, h.2.2.2⟩,
      fun h => ⟨h.identifier, h.start, h.notReg, h.notNumber⟩⟩

theorem Var.Identified.readable {v : Var} (h : v.Identified) : v.Readable where
  atom := h.identifier.isAtom h.start
  notLabel := by
    intro hcolon
    have hmem : ':' ∈ v.name.toList := List.mem_of_head? hcolon
    have hchar := h.identifier.chars ':' hmem
    revert hchar
    decide
  notReg := Reg.ofName?_eq_none.mpr h.notReg
  notNumber := h.notNumber

/-- All names of a program are identifiers, and no variable is called like a keyword or a function
of the runtime where it would be read as one. -/
structure Program.Identified (p : Program) : Prop where
  entry : IsIdentifier p.entry.name
  labels : ∀ f ∈ p.funcs, ∀ l, f.HasLabel l → IsIdentifier l.name
  vars : ∀ f ∈ p.funcs, ∀ v ∈ f.vars, v.Identified
  dests : ∀ f ∈ p.funcs, ∀ i ∈ f.code, ∀ v, i.dest? = some (.var v) → v.name ∉ keywords
  callees : ∀ f ∈ p.funcs, ∀ v n, .call (.var v) n ∈ f.code → v.name ∉ runtimeNames

namespace Program.Identified

variable {p : Program} {f : Func}

theorem operand_readable (h : p.Identified) (hf : f ∈ p.funcs) {i : Instr} (hi : i ∈ f.code)
    {x : Operand} (hx : x ∈ i.slots) (hknown : x.Known) : x.Readable := by
  cases x with
  | reg r => exact hknown
  | var v => exact (h.vars f hf v (Func.mem_vars.mpr ⟨i, hi, hx⟩)).readable
  | num n => trivial
  | label l => exact (h.labels f hf l (.inr ⟨i, hi, .inl hx⟩)).label_readable
  | runtime name => exact hknown
  | hole => cases hknown

theorem instr_readable (h : p.Identified) (hf : f ∈ p.funcs) {i : Instr} (hi : i ∈ f.code)
    (hwf : i.WellFormed) : i.Readable where
  wellFormed := hwf
  slots x hx := h.operand_readable hf hi hx (hwf.known x hx)
  labels l hl := (h.labels f hf l (.inr ⟨i, hi, .inr hl⟩)).label_readable
  dest := h.dests f hf i hi
  callee v n hcall := h.callees f hf v n (hcall ▸ hi)
  glued := by
    -- the only variable that runs together with its operator is no identifier
    rintro rfl
    have hv : (⟨"<"⟩ : Var) ∈ f.vars := Func.mem_vars.mpr ⟨_, hi, List.mem_singleton.mpr rfl⟩
    have hident := (h.vars f hf _ hv).identifier
    revert hident
    decide

theorem func_readable (h : p.Identified) (hf : f ∈ p.funcs) (hcheck : f.check = .ok ()) :
    f.Readable where
  name := (h.labels f hf f.name (.inl rfl)).label_readable
  named := (h.labels f hf f.name (.inl rfl)).nonempty
  code i hi := h.instr_readable hf hi (Func.check_eq_ok_iff.mp hcheck i hi)

end Program.Identified

namespace Program

/-- The text of a well-formed program whose names are identifiers is read as the program. -/
theorem parse_text_of_identified {p : Program} (hne : p.funcs ≠ [])
    (hcheck : ∀ f ∈ p.funcs, f.check = .ok ()) (h : p.Identified) (name : String) :
    Program.parse name (Bytes.ofString p.text) = .ok p := by
  apply parse_text
  exact {
    entry := h.entry.label_readable
    named := h.entry.nonempty
    nonempty := hne
    funcs := fun f hf => h.func_readable hf (hcheck f hf) }

/-- Every form of instruction once, with the largest numbers and with names that are words of the
language wherever they may be. -/
def wordy : Program where
  entry := ⟨"-_go"⟩
  funcs := [{
    name := ⟨"9-lives"⟩
    args := Int64.minValue
    locals := Int64.maxValue
    code := [
      .label ⟨"-top"⟩, .mov (.var ⟨"mem"⟩) (.label ⟨"9-lives"⟩),
      .load (.var ⟨"stack-arg"⟩) .rsp Int64.minValue,
      .stackArg (.var ⟨"9223372036854775808"⟩) Int64.maxValue,
      .store (.var ⟨"a-_-b"⟩) (-8) (.var ⟨"goto"⟩),
      .cmp (.var ⟨"print"⟩) .le (.num Int64.minValue) (.var ⟨"return"⟩),
      .arith .mul (.var ⟨"mem"⟩) (.num Int64.maxValue),
      .arithLoad .sub (.reg .rax) (.var ⟨"call"⟩) 0,
      .memArith .add .rsp 16 (.var ⟨"cjump"⟩), .shift .shl (.var ⟨"x"⟩) (.var ⟨"n"⟩),
      .lea (.var ⟨"_"⟩) (.var ⟨"x"⟩) (.reg .r15) 8, .inc (.var ⟨"mem"⟩), .dec (.var ⟨"a-_-b"⟩),
      .cjump .lt (.var ⟨"call"⟩) (.num 0) ⟨"-top"⟩ ⟨"0"⟩, .label ⟨"0"⟩, .goto ⟨"-top"⟩,
      .call (.var ⟨"mem"⟩) Int64.maxValue, .call (.runtime "array-error") 2, .ret] }]

theorem identified_wordy : wordy.Identified where
  entry := by decide
  labels f hf l hl := by
    obtain rfl := List.mem_singleton.mp hf
    rcases hl with rfl | ⟨i, hi, hl⟩
    · decide
    · -- the labels of the code are few
      have hall : ∀ l, i.HasLabel l → l ∈ [⟨"9-lives"⟩, ⟨"-top"⟩, ⟨"0"⟩] := by
        simp only [List.mem_cons, List.not_mem_nil, or_false] at hi
        rcases hi with rfl | rfl | rfl | rfl | rfl | rfl | rfl | rfl | rfl | rfl | rfl | rfl | rfl |
          rfl | rfl | rfl | rfl | rfl | rfl <;>
          simp [Instr.HasLabel, Instr.slots, Instr.targets, Instr.label?]
      have hident : ∀ l ∈ [(⟨"9-lives"⟩ : Label), ⟨"-top"⟩, ⟨"0"⟩], IsIdentifier l.name := by decide
      exact hident l (hall l hl)
  vars := by decide +kernel
  dests f hf := by
    obtain rfl := List.mem_singleton.mp hf
    have hall : ∀ i ∈ (wordy.funcs.flatMap Func.code), i.dest?.all (fun x =>
      x.var?.all fun v => v.name ∉ keywords) = true := by decide +kernel
    intro i hi v hv
    simpa [hv, Operand.var?] using hall i (by simpa [wordy] using hi)
  callees f hf v n hcall := by
    obtain rfl := List.mem_singleton.mp hf
    simp only [List.mem_cons, reduceCtorEq, Instr.call.injEq, Operand.var.injEq, List.not_mem_nil,
      or_false, false_or, false_and] at hcall
    rw [hcall.1]
    decide

theorem parse_text_of_identified_wordy :
    wordy.funcs ≠ [] ∧ (∀ f ∈ wordy.funcs, f.check = .ok ()) ∧ wordy.Identified ∧
      Program.parse "wordy" (Bytes.ofString wordy.text) = .ok wordy := by
  have hne : wordy.funcs ≠ [] := List.cons_ne_nil _ _
  have hcheck : ∀ f ∈ wordy.funcs, f.check = .ok () := by
    intro f hf
    rw [List.mem_singleton.mp hf]
    exact toOption_eq_some.mp (by decide +kernel)
  exact ⟨hne, hcheck, identified_wordy,
    parse_text_of_identified hne hcheck identified_wordy "wordy"⟩

end Program

end Spillway
