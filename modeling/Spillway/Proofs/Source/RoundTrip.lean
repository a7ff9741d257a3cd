import Spillway.Code.Printer
import Spillway.Proofs.Source.Reading

/-!
# Written programs can be read

The text of a readable program is cut into the lexemes of its tree (`Program.cut_text`), from which
the tree is built and the program read (`Program.parse_text`).
-/

namespace Spillway

open Token

/-! ## Instructions -/

namespace Instr

variable {i : Instr} {rest : Bytes}

/-- Everything but the operator of an increment or a decrement is set off by single blanks. -/
theorem text_eq_spell (hinc : ∀ dst, i ≠ .inc dst) (hdec : ∀ dst, i ≠ .dec dst) :
    i.text = spell i.tree.lexemes := by
  cases i with
  | inc dst => exact absurd rfl (hinc dst)
  | dec dst => exact absurd rfl (hdec dst)
  | _ =>
      apply String.toList_injective
      unfold text
      simp [memText, tree, Tree.cell, Tree.lexemes, Tree.lexemesAll, spell, gap]

/-- The words of a readable instruction are atoms. -/
theorem isAtom_of_readable (h : i.Readable) : ∀ t, .atom t ∈ i.tree.lexemes → Token.IsAtom t := by
  have hslot : ∀ x ∈ i.slots, Token.IsAtom x.text := fun x hx => (h.slots x hx).isAtom
  have hlabel : ∀ l, l ∈ i.targets ∨ i.label? = some l → Token.IsAtom l.text :=
    fun l hl => h.labels l hl
  have hwf := h.wellFormed
  have hnumber : ∀ n : Int64, Token.IsAtom (Decimal.text64 n) :=
    fun n => Decimal.isAtom_text n.toInt
  have hcond : ∀ c : Cond, (∀ s, c ≠ .unknown s) → Token.IsAtom c.symbol := by
    intro c hc
    cases c with
    | unknown s => exact absurd rfl (hc s)
    | _ => decide
  have hop : ∀ op : Op, op ∈ [.add, .sub, .mul, .and] ∨ op ∈ [.add, .sub] ∨ op ∈ [.shl, .shr] →
      Token.IsAtom op.symbol := by
    intro op hop
    simp only [List.mem_cons, List.not_mem_nil, or_false] at hop
    rcases hop with (rfl | rfl | rfl | rfl) | (rfl | rfl) | rfl | rfl <;> decide
  have hwords : ∀ w ∈
      ["<-", "mem", "stack-arg", "@", "++", "--", "cjump", "goto", "return", "call"],
      Token.IsAtom w := by decide
  -- every word of the tree is one of these
  cases i <;>
    simp_all [tree, Tree.cell, Tree.lexemes, Tree.lexemesAll, slots, targets, label?, WellFormed]

/-- An operator that ends an operand need not be set off from it, unless both start with another
one. -/
theorem cut_glued {x op : String} (hx : Token.IsAtom x) (hop : op ∈ gluedOps)
    (hne : x = "<" → op ≠ "--") (rest : Bytes) :
    cut (Bytes.ofString ("(" ++ x ++ (op ++ ")")) ++ rest) =
      ([.opening, .atom x, .atom op, .closing] ++ (cut rest).1, (cut rest).2) := by
  have hatoms : ∀ op ∈ gluedOps, Token.IsAtom op := by decide
  simp only [Bytes.ofString_append, List.append_assoc]
  show cut ('('.toUInt8 :: (Bytes.ofString x ++ (Bytes.ofString op ++ (')'.toUInt8 :: rest)))) = _
  rw [cut_opening, hx.cut_append_glued hop hne,
    (hatoms op hop).cut_append (separated_cons (by decide) rest), cut_closing]
  rfl

/-- The only place that can be written like a comparison is a variable of this name. -/
theorem eq_var_of_text {dst : Operand} (h : dst.Writable) (htext : dst.text = "<") :
    dst = .var ⟨"<"⟩ := by
  cases dst with
  | reg r =>
      have hreg := Reg.forall_machine (P := fun r => r.text ≠ "<") (by decide) h.2
      exact absurd htext hreg
  | var v => exact congrArg (fun name => Operand.var ⟨name⟩) htext
  | num | label | runtime | hole => cases h

/-- The text of an instruction is cut into the lexemes of its tree. -/
theorem cut_text (h : i.Readable) (hrest : Separated rest) :
    cut (Bytes.ofString i.text ++ rest) = (i.tree.lexemes ++ (cut rest).1, (cut rest).2) := by
  -- increments and decrements are written without blanks
  by_cases hinc : ∃ dst, i = .inc dst
  · obtain ⟨dst, rfl⟩ := hinc
    have hdst := (h.slots dst (by simp [slots])).isAtom
    exact cut_glued hdst (show "++" ∈ gluedOps by decide) (fun _ => by decide) rest
  · by_cases hdec : ∃ dst, i = .dec dst
    · obtain ⟨dst, rfl⟩ := hdec
      have hdst := (h.slots dst (by simp [slots])).isAtom
      refine cut_glued hdst (show "--" ∈ gluedOps by decide) (fun hless => ?_) rest
      exact absurd (congrArg dec (eq_var_of_text h.wellFormed hless)) h.glued
    · rw [text_eq_spell (fun dst hi => hinc ⟨dst, hi⟩) (fun dst hi => hdec ⟨dst, hi⟩)]
      exact cut_spell (isAtom_of_readable h) hrest

theorem cut_line (h : i.Readable) (rest : Bytes) :
    cut (Bytes.ofString i.line ++ rest) = (i.tree.lexemes ++ (cut rest).1, (cut rest).2) := by
  have hnewline : cut ('\n'.toUInt8 :: rest) = cut rest := cut_blank (by decide) rest
  rw [line, Bytes.ofString_append, Bytes.ofString_append, List.append_assoc, List.append_assoc]
  show cut (' '.toUInt8 :: ' '.toUInt8 :: ' '.toUInt8 :: ' '.toUInt8 ::
    (Bytes.ofString i.text ++ ('\n'.toUInt8 :: rest))) = _
  rw [cut_blank (by decide), cut_blank (by decide), cut_blank (by decide), cut_blank (by decide),
    cut_text h (separated_cons (by decide) rest), hnewline]

end Instr

/-! ## Functions and programs -/

/-- What is cut from texts one after the other. -/
theorem cut_join {α : Type} {text : α → String} {tree : α → Tree} {xs : List α}
    (h : ∀ x ∈ xs, ∀ rest, cut (Bytes.ofString (text x) ++ rest) =
      ((tree x).lexemes ++ (cut rest).1, (cut rest).2)) (rest : Bytes) :
    cut (Bytes.ofString (String.join (xs.map text)) ++ rest) =
      (Tree.lexemesAll (xs.map tree) ++ (cut rest).1, (cut rest).2) := by
  induction xs with
  | nil => rfl
  | cons x xs ih =>
      rw [List.forall_mem_cons] at h
      rw [List.map_cons, String.join_cons, Bytes.ofString_append, List.append_assoc, h.1, ih h.2,
        List.map_cons, Tree.lexemesAll, List.append_assoc]

/-- What is cut from a function: its head, then its instructions. -/
theorem Func.cut_head {f : Func} (h : f.name.Readable) (rest : Bytes) :
    cut (Bytes.ofString f.text ++ rest) =
      let code := cut (Bytes.ofString (String.join (f.code.map Instr.line)) ++
        (' '.toUInt8 :: ' '.toUInt8 :: ')'.toUInt8 :: '\n'.toUInt8 :: rest))
      ([.opening, .atom f.name.text, .atom (Decimal.text64 f.args),
        .atom (Decimal.text64 f.locals)] ++ code.1, code.2) := by
  have hname : Token.IsAtom f.name.text := h
  have hargs : Token.IsAtom (Decimal.text64 f.args) := Decimal.isAtom_text _
  have hlocals : Token.IsAtom (Decimal.text64 f.locals) := Decimal.isAtom_text _
  simp only [text, Bytes.ofString_append, List.append_assoc]
  show cut (' '.toUInt8 :: ' '.toUInt8 :: '('.toUInt8 :: (Bytes.ofString f.name.text ++
    (' '.toUInt8 :: (Bytes.ofString (Decimal.text64 f.args) ++
    (' '.toUInt8 :: (Bytes.ofString (Decimal.text64 f.locals) ++
    ('\n'.toUInt8 :: (Bytes.ofString (String.join (f.code.map Instr.line)) ++
    (' '.toUInt8 :: ' '.toUInt8 :: ')'.toUInt8 :: '\n'.toUInt8 :: rest))))))))) = _
  rw [cut_blank (by decide), cut_blank (by decide), cut_opening,
    hname.cut_append (separated_cons (by decide) _), cut_blank (by decide),
    hargs.cut_append (separated_cons (by decide) _), cut_blank (by decide),
    hlocals.cut_append (separated_cons (by decide) _), cut_blank (by decide)]
  rfl

theorem Func.cut_text {f : Func} (h : f.Readable) (rest : Bytes) :
    cut (Bytes.ofString f.text ++ rest) = (f.tree.lexemes ++ (cut rest).1, (cut rest).2) := by
  rw [cut_head h.name, cut_join fun i hi => Instr.cut_line (h.code i hi), cut_blank (by decide),
    cut_blank (by decide), cut_closing, cut_blank (by decide)]
  simp [tree, Tree.lexemes, Tree.lexemesAll]

/-- What is cut from a program: its entry, then its functions. -/
theorem Program.cut_head {p : Program} (h : p.entry.Readable) :
    cut (Bytes.ofString p.text) =
      let funcs := cut (Bytes.ofString (String.join (p.funcs.map Func.text)) ++
        [')'.toUInt8, '\n'.toUInt8])
      ([.opening, .atom p.entry.text] ++ funcs.1, funcs.2) := by
  have hentry : Token.IsAtom p.entry.text := h
  simp only [text, Bytes.ofString_append, List.append_assoc]
  show cut ('('.toUInt8 :: (Bytes.ofString p.entry.text ++ ('\n'.toUInt8 ::
    (Bytes.ofString (String.join (p.funcs.map Func.text)) ++ [')'.toUInt8, '\n'.toUInt8])))) = _
  rw [cut_opening, hentry.cut_append (separated_cons (by decide) _), cut_blank (by decide)]
  rfl

theorem Program.cut_text {p : Program} (h : p.Readable) :
    cut (Bytes.ofString p.text) = (p.tree.lexemes, none) := by
  rw [cut_head h.entry, cut_join fun f hf => Func.cut_text (h.funcs f hf), cut_closing,
    cut_blank (by decide), cut_nil]
  simp [tree, Tree.lexemes, Tree.lexemesAll]

/-- Reading the text of a readable program gives the program back, under any name. -/
theorem Program.parse_text {p : Program} (h : p.Readable) (name : String) :
    Program.parse name (Bytes.ofString p.text) = .ok p := by
  have hcut := cut_text h
  unfold cut at hcut
  obtain ⟨hlexemes, hstop⟩ := Prod.mk.inj hcut
  rw [← List.append_nil p.tree.lexemes] at hlexemes
  obtain ⟨t, rest, ht, hrest, hbuild⟩ :=
    Tree.build_lexemes (scan 0 (Bytes.ofString p.text)).2 p.tree [] hlexemes
  have hnil : rest = [] := List.map_eq_nil_iff.mp hrest
  subst hnil
  have htree : Source.tree ⟨name, Bytes.ofString p.text⟩ .afterProgram = .ok t := by
    unfold Source.tree
    simp only [hbuild, Tree.deliver, hstop]
  unfold Program.parse
  simp only [htree, ok_bind]
  exact Source.program_of_erase h ht

end Spillway
