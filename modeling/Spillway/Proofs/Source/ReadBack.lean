import Spillway.Proofs.Source.Atoms
import Spillway.Proofs.Source.RoundTrip

/-!
# Reading a program back

A decrement is written with its operator right after the operand. That is safe after every operand
but the variable `<`: the text `(<--)` starts with the operator `<-`, and at the hyphen that is left
no token starts. So a well-formed program that has been read is read back from its text exactly if
it does not decrement this variable, and otherwise the text is no program
(`Program.parse_text_eq_ok_iff`).
-/

namespace Spillway

open Token

/-! ## Texts that cannot be cut -/

namespace Token

/-- Cutting the text ends before its end, whatever follows. -/
def Stops (text : String) : Prop :=
  ∀ rest, (cut (Bytes.ofString text ++ rest)).2 ≠ none

/-- Cutting goes on after the text. -/
def Passes (text : String) : Prop :=
  ∀ rest, (cut (Bytes.ofString text ++ rest)).2 = (cut rest).2

/-- Cutting texts one after the other ends at the first that stops it. -/
theorem stops_join {α : Type} {text : α → String} {xs : List α} {x : α}
    (h : ∀ x ∈ xs, Stops (text x) ∨ Passes (text x)) (hx : x ∈ xs) (hstop : Stops (text x)) :
    Stops (String.join (xs.map text)) := by
  intro rest
  induction xs with
  | nil => cases hx
  | cons y ys ih =>
      rw [List.forall_mem_cons] at h
      rw [List.map_cons, String.join_cons, Bytes.ofString_append, List.append_assoc]
      rcases h.1 with hy | hy
      · exact hy _
      · rw [hy]
        rcases List.mem_cons.mp hx with rfl | hx
        · -- the text that stops does not pass as well
          exact absurd (hy []) (by simpa using hstop [])
        · exact ih h.2 hx

end Token

namespace Instr

/-- The operand and the operator run together. -/
theorem stops_line_glued : Stops (line (.dec (.var ⟨"<"⟩))) := by
  intro rest
  have harrow : Token.IsAtom "<-" := by decide
  show (cut (' '.toUInt8 :: ' '.toUInt8 :: ' '.toUInt8 :: ' '.toUInt8 :: '('.toUInt8 ::
    (Bytes.ofString "<-" ++ ('-'.toUInt8 :: ')'.toUInt8 :: '\n'.toUInt8 :: rest)))).2 ≠ none
  rw [cut_blank (by decide), cut_blank (by decide), cut_blank (by decide), cut_blank (by decide),
    cut_opening, harrow.cut_of_atomLength rfl, cut_stop (by decide) rfl]
  exact Option.some_ne_none _

theorem passes_line {i : Instr} (h : i.Readable) : Passes i.line := by
  intro rest
  rw [cut_line h]

end Instr

/-! ## Functions and programs -/

theorem Func.passes_text {f : Func} (h : f.Readable) : Passes f.text := by
  intro rest
  rw [cut_text h]

theorem Func.stops_text {f : Func} (hname : f.name.Readable)
    (h : ∀ i ∈ f.code, i ≠ .dec (.var ⟨"<"⟩) → i.Readable) (hmem : .dec (.var ⟨"<"⟩) ∈ f.code) :
    Stops f.text := by
  have hlines : ∀ i ∈ f.code, Stops i.line ∨ Passes i.line := by
    intro i hi
    by_cases hglued : i = .dec (.var ⟨"<"⟩)
    · subst hglued
      exact .inl Instr.stops_line_glued
    · exact .inr (Instr.passes_line (h i hi hglued))
  intro rest
  rw [cut_head hname]
  exact stops_join hlines hmem Instr.stops_line_glued _

namespace Program

variable {name : String} {text : Bytes} {p : Program}

/-- The text of a program is cut to its end. -/
theorem cut_of_parse (h : Program.parse name text = .ok p) : (cut text).2 = none := by
  obtain ⟨t, htree, _⟩ := bind_eq_ok.mp h
  unfold Source.tree at htree
  simp only at htree
  split at htree
  · cases htree
  · split at htree
    · rename_i hstop _
      exact hstop
    · cases htree
    · cases htree

theorem cut_text_ne_none (h : Program.parse name text = .ok p)
    (hcheck : ∀ f ∈ p.funcs, f.check = .ok ()) {f : Func} (hf : f ∈ p.funcs)
    (hmem : .dec (.var ⟨"<"⟩) ∈ f.code) : (cut (Bytes.ofString p.text)).2 ≠ none := by
  obtain ⟨⟨_, hentry⟩, _, hfuncs⟩ := parse_eq_ok h
  have hstops : ∀ g ∈ p.funcs, .dec (.var ⟨"<"⟩) ∈ g.code → Stops g.text := fun g hg =>
    Func.stops_text (hfuncs g hg).1.2 fun i hi => instr_readable_of_parse h hcheck hg hi
  have htexts : ∀ g ∈ p.funcs, Stops g.text ∨ Passes g.text := by
    intro g hg
    by_cases hglued : .dec (.var ⟨"<"⟩) ∈ g.code
    · exact .inl (hstops g hg hglued)
    · exact .inr (Func.passes_text (func_readable_of_parse h hcheck hg hglued))
  rw [cut_head hentry]
  exact stops_join htexts hf (hstops f hf hmem) _

/-- A well-formed program that has been read is what its text is read as, unless it decrements the
variable `<`; then its text cannot be read. -/
theorem parse_text_eq_ok_iff (h : Program.parse name text = .ok p)
    (hcheck : ∀ f ∈ p.funcs, f.check = .ok ()) (name' : String) (q : Program) :
    Program.parse name' (Bytes.ofString p.text) = .ok q ↔
      q = p ∧ ∀ f ∈ p.funcs, .dec (.var ⟨"<"⟩) ∉ f.code := by
  constructor
  · intro hq
    have hglued : ∀ f ∈ p.funcs, .dec (.var ⟨"<"⟩) ∉ f.code := fun f hf hmem =>
      cut_text_ne_none h hcheck hf hmem (cut_of_parse hq)
    rw [parse_text (readable_of_parse h hcheck hglued) name'] at hq
    cases hq
    exact ⟨rfl, hglued⟩
  · rintro ⟨rfl, hglued⟩
    exact parse_text (readable_of_parse h hcheck hglued) name'

/-- The variables of this program are spelled like operators. -/
def spelled : Program where
  entry := ⟨"f"⟩
  funcs := [{
    name := ⟨"f"⟩
    args := 0
    locals := 0
    code := [.dec (.var ⟨"<="⟩), .mov (.var ⟨"--"⟩) (.num 7), .inc (.var ⟨"<"⟩), .ret] }]

theorem parse_text_eq_ok_iff_spelled :
    Program.parse "spelled"
        (Bytes.ofString "(:f (:f 0 0 (<= --) (-- <- +07) (< ++) (return)))") = .ok spelled ∧
      (∀ f ∈ spelled.funcs, f.check = .ok ()) ∧
      spelled.text =
        "(:f\n  (:f 0 0\n    (<=--)\n    (-- <- 7)\n    (<++)\n    (return)\n  )\n)\n" ∧
      Program.parse "again" (Bytes.ofString spelled.text) = .ok spelled := by
  have h : Program.parse "spelled"
      (Bytes.ofString "(:f (:f 0 0 (<= --) (-- <- +07) (< ++) (return)))") = .ok spelled :=
    toOption_eq_some.mp (by decide +kernel)
  have hcheck : ∀ f ∈ spelled.funcs, f.check = .ok () := by
    intro f hf
    rw [List.mem_singleton.mp hf]
    exact toOption_eq_some.mp (by decide +kernel)
  exact ⟨h, hcheck, by decide +kernel,
    (parse_text_eq_ok_iff h hcheck "again" spelled).mpr ⟨rfl, by decide +kernel⟩⟩

/-- The program with a single decrement. -/
def decrementing : Program where
  entry := ⟨"f"⟩
  funcs := [{ name := ⟨"f"⟩, args := 0, locals := 0, code := [.dec (.var ⟨"<"⟩)] }]

/-- A well-formed program that is read from one text, and whose own text cannot be read. -/
theorem parse_text_decrementing :
    Program.parse "decrementing" (Bytes.ofString "(:f (:f 0 0 (< --)))") = .ok decrementing ∧
      (∀ f ∈ decrementing.funcs, f.check = .ok ()) ∧
      decrementing.text = "(:f\n  (:f 0 0\n    (<--)\n  )\n)\n" ∧
      ∀ name q, Program.parse name (Bytes.ofString decrementing.text) ≠ .ok q := by
  have h : Program.parse "decrementing" (Bytes.ofString "(:f (:f 0 0 (< --)))") =
      .ok decrementing := toOption_eq_some.mp (by decide +kernel)
  have hcheck : ∀ f ∈ decrementing.funcs, f.check = .ok () := by
    intro f hf
    rw [List.mem_singleton.mp hf]
    exact toOption_eq_some.mp (by decide +kernel)
  refine ⟨h, hcheck, by decide +kernel, fun name q hq => ?_⟩
  exact cut_text_ne_none h hcheck List.mem_cons_self List.mem_cons_self (cut_of_parse hq)

end Program

end Spillway
