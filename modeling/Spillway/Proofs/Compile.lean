import Spillway.Compile
import Spillway.Proofs.Allocator.Output
import Spillway.Proofs.Source.Atoms
import Spillway.Proofs.Source.RoundTrip

/-!
# Compiled programs

A compiled function has no variables and reads no stack arguments (`Func.Compiled`), and compiling
it once more changes nothing (`Program.compile_of_compiled`). The labels of a program that has been
read survive, so a compiled program can be written, read and compiled again, with the same result
(`compileText_idempotent`).
-/

namespace Spillway

/-! ## Compiled functions -/

/-- A well-formed instruction without variables is readable if its labels are. -/
theorem Instr.readable_of_vars_eq_nil {i : Instr} (hwf : i.WellFormed) (hvars : i.vars = [])
    (hlabels : ∀ l, i.HasLabel l → l.Readable) : i.Readable := by
  have hnovar : ∀ v, .var v ∉ i.slots := by
    intro v hv
    have hmem := mem_vars.mpr hv
    rw [hvars] at hmem
    cases hmem
  refine ⟨hwf, fun x hx => ?_, fun l hl => hlabels l (.inr hl), fun v hv => ?_, fun v n hi => ?_,
    fun hi => ?_⟩
  · have hknown := hwf.known x hx
    cases x with
    | var v => exact absurd hx (hnovar v)
    | label l => exact hlabels l (.inl hx)
    | reg | num | runtime | hole => exact hknown
  · exact absurd (mem_slots_of_dest? hv) (hnovar v)
  · subst hi
    exact absurd (by simp [slots]) (hnovar v)
  · subst hi
    exact absurd (by simp [slots]) (hnovar ⟨"<"⟩)

/-- The function has no variables, reads no stack arguments, and passes all checks. -/
structure Func.Compiled (f : Func) : Prop where
  vars : f.vars = []
  lowered : f.Lowered
  check : f.check = .ok ()
  resolves : f.Resolves

namespace Func

variable {c : Convention} {f r : Func}

theorem compiled_of_allocate (hsp : c.stackPointer = Reg.rsp) (hshift : c.shiftCount = Reg.rcx)
    (h : f.allocate c = .ok r) : r.lowerStackArgs.Compiled where
  vars := (vars_lowerStackArgs r).trans (allocate_vars h)
  lowered := lowered_lowerStackArgs r
  check := check_lowerStackArgs (allocate_check hsp hshift h)
  resolves := resolves_lowerStackArgs (allocate_resolves h)

theorem Compiled.readable (h : f.Compiled) (hnamed : f.name.name ≠ "")
    (hlabels : ∀ l, f.HasLabel l → l.Readable) : f.Readable where
  name := hlabels _ (.inl rfl)
  named := hnamed
  code i hi := Instr.readable_of_vars_eq_nil (check_eq_ok_iff.mp h.check i hi)
    (vars_eq_nil_iff.mp h.vars i hi) fun l hl => hlabels l (.inr ⟨i, hi, hl⟩)

end Func

/-! ## Compiled programs -/

namespace Program

variable {c : Convention} {p q : Program}

theorem entryDefined_iff : p.entryDefined = true ↔ ∃ f ∈ p.funcs, f.name = p.entry := by
  simp [entryDefined, func?]

/-- A program with its entry is compiled function by function. -/
theorem compile_eq (hentry : p.entryDefined = true) : p.compile c =
    ((p.funcs.mapM fun f => f.allocate c >>= fun g => .ok g.lowerStackArgs) >>= fun funcs =>
      .ok { p with funcs }) := by
  unfold compile
  rw [if_pos hentry]
  rfl

/-- A compiled program has the entry of the program and the functions compiled one by one. -/
theorem compile_eq_ok (h : p.compile c = .ok q) : q.entry = p.entry ∧ q.entryDefined = true ∧
    (p.funcs ≠ [] → q.funcs ≠ []) ∧
    ∀ g ∈ q.funcs, ∃ f ∈ p.funcs, ∃ r, f.allocate c = .ok r ∧ g = r.lowerStackArgs := by
  have hentry : p.entryDefined = true := by
    refine Classical.byContradiction fun hnot => ?_
    unfold compile at h
    rw [if_neg hnot] at h
    cases h
  rw [compile_eq hentry] at h
  obtain ⟨funcs, hfuncs, h⟩ := bind_eq_ok.mp h
  cases h
  have hmap := mapM_eq_ok.mp hfuncs
  refine ⟨rfl, ?_, ?_, fun g hg => ?_⟩
  · -- the entry is compiled to a function of the same name
    obtain ⟨f, hf, hname⟩ := entryDefined_iff.mp hentry
    have hmem :=
      List.mem_map_of_mem hf (f := fun f => f.allocate c >>= fun g => .ok g.lowerStackArgs)
    rw [hmap] at hmem
    obtain ⟨g, hg, heq⟩ := List.mem_map.mp hmem
    obtain ⟨r, hr, hlower⟩ := bind_eq_ok.mp heq.symm
    cases hlower
    exact entryDefined_iff.mpr ⟨_, hg, (Func.allocate_name hr).trans hname⟩
  · rintro hne rfl
    exact hne (List.map_eq_nil_iff.mp hmap)
  · obtain ⟨f, hf, hread⟩ := List.mem_map.mp (hmap ▸ List.mem_map_of_mem hg)
    obtain ⟨r, hr, hlower⟩ := bind_eq_ok.mp hread
    cases hlower
    exact ⟨f, hf, r, hr, rfl⟩

/-- Compiled functions are compiled to themselves. -/
theorem compile_of_compiled (hc : c.check = .ok ()) (hsp : c.stackPointer = Reg.rsp)
    (hentry : p.entryDefined = true) (h : ∀ f ∈ p.funcs, f.Compiled) : p.compile c = .ok p := by
  have hfuncs : (p.funcs.mapM fun f => f.allocate c >>= fun g => .ok g.lowerStackArgs) =
      .ok p.funcs := by
    refine mapM_eq_ok.mpr (List.map_congr_left fun f hf => ?_)
    have hf := h f hf
    rw [Func.allocate_of_vars_eq_nil hc hsp hf.check hf.resolves hf.vars, ok_bind,
      Func.lowerStackArgs_of_lowered hf.lowered]
  rw [compile_eq hentry, hfuncs]
  rfl

/-- What compiling a program that has been read leads to can be written and read. -/
theorem readable_of_compile {name : String} {text : Bytes}
    (hparse : Program.parse name text = .ok p) (h : p.compile c = .ok q)
    (hcompiled : ∀ f ∈ q.funcs, f.Compiled) : q.Readable := by
  obtain ⟨⟨hnamed, hentry⟩, hne, hlabels⟩ := labels_of_parse hparse
  obtain ⟨hentry', _, hne', hfuncs⟩ := compile_eq_ok h
  refine ⟨hentry' ▸ hentry, hentry' ▸ hnamed, hne' hne, fun g hg => ?_⟩
  obtain ⟨f, hf, r, hr, rfl⟩ := hfuncs g hg
  refine (hcompiled _ hg).readable ?_ fun l hl => ?_
  · show r.name.name ≠ ""
    rw [Func.allocate_name hr]
    exact (hlabels f hf).1
  · exact (hlabels f hf).2 l (Func.allocate_hasLabel hr (Func.hasLabel_of_lowerStackArgs hl))

end Program

/-- A compiled text is the text of a compiled program. It can be read, under any name, and gives
this program back, in which no operand is a variable, no instruction reads a stack argument and
every function passes the check. Compiling it once more changes nothing. -/
theorem compileText_idempotent {name : String} {text : Bytes} {obj : String}
    (h : compileText name text = .ok obj) :
    ∃ p q, Program.parse name text = .ok p ∧ p.compile .systemV = .ok q ∧ obj = q.text ∧
      (∀ name', Program.parse name' (Bytes.ofString obj) = .ok q) ∧
      (∀ f ∈ q.funcs, f.check = .ok () ∧
        ∀ i ∈ f.code, (∀ v, .var v ∉ i.slots) ∧ ∀ dst off, i ≠ .stackArg dst off) ∧
      ∀ name', compileText name' (Bytes.ofString obj) = .ok obj := by
  obtain ⟨p, hparse, h⟩ := bind_eq_ok.mp h
  obtain ⟨q, hcompile, h⟩ := bind_eq_ok.mp h
  cases h
  have hparse := inContext_eq_ok.mp hparse
  have hcompile := inContext_eq_ok.mp hcompile
  obtain ⟨_, hentry, _, hfuncs⟩ := Program.compile_eq_ok hcompile
  have hcompiled : ∀ f ∈ q.funcs, f.Compiled := by
    intro g hg
    obtain ⟨f, _, r, hr, rfl⟩ := hfuncs g hg
    exact Func.compiled_of_allocate rfl rfl hr
  have hread : ∀ name', Program.parse name' (Bytes.ofString q.text) = .ok q :=
    Program.parse_text (Program.readable_of_compile hparse hcompile hcompiled)
  refine ⟨p, q, hparse, hcompile, rfl, hread, fun f hf => ⟨(hcompiled f hf).check, ?_⟩, ?_⟩
  · refine fun i hi => ⟨fun v hv => ?_, (hcompiled f hf).lowered i hi⟩
    have hmem := Func.mem_vars.mpr ⟨i, hi, hv⟩
    rw [(hcompiled f hf).vars] at hmem
    cases hmem
  · intro name'
    have hagain : q.compile .systemV = .ok q :=
      Program.compile_of_compiled (by decide) rfl hentry hcompiled
    unfold compileText
    rw [hread, inContext_ok, ok_bind, hagain]
    rfl

/-- The variable of this text counts a shift and takes an argument from the stack. -/
theorem compileText_idempotent_shift : ∃ obj,
    compileText "shift" (Bytes.ofString "(:f (:f 7 0 (n <- (stack-arg 0)) (rax <<= n) (return)))") =
      .ok obj ∧
    obj = "(:f\n  (:f 7 0\n    (rcx <- (mem rsp 0))\n    (rax <<= rcx)\n    (return)\n  )\n)\n" ∧
    compileText "again" (Bytes.ofString obj) = .ok obj := by
  have h : compileText "shift"
      (Bytes.ofString "(:f (:f 7 0 (n <- (stack-arg 0)) (rax <<= n) (return)))") = .ok
        "(:f\n  (:f 7 0\n    (rcx <- (mem rsp 0))\n    (rax <<= rcx)\n    (return)\n  )\n)\n" :=
    toOption_eq_some.mp (by decide +kernel)
  obtain ⟨_, _, _, _, _, _, _, hagain⟩ := compileText_idempotent h
  exact ⟨_, h, rfl, hagain "again"⟩

end Spillway
