import Mathlib.Data.Nat.Init
import Spillway.Proofs.Allocator.Output

/-!
# Callee-saved registers

An allocation saves no register, and yet a function that does not write the callee-saved registers
does not get to change one on a way to a return (`Func.allocate_calleeSave`). A return uses them, so
they are live at every place from which one can be reached (`Func.SparesCalleeSave.live`), and no
variable that is written there has one of them. The one exception is a variable that a move copies
from the register itself: it may share it, and then the move puts back what was there.
-/

namespace Spillway

/-! ## Ways to a return -/

/-- A return can be reached from the place along the control flow. -/
inductive Flow.ReachesReturn (flow : Flow) (f : Func) : Nat → Prop
  | here {n : Nat} : f.code[n]? = some .ret → ReachesReturn flow f n
  | next {n j : Nat} {js : List Nat} : flow.succ[n]? = some js → j ∈ js →
      ReachesReturn flow f j → ReachesReturn flow f n

variable {c : Convention} {f F r : Func} {flow : Flow} {ρ : Operand → Operand} {i j : Instr}
  {x : Reg} {n k : Nat}

/-- Resolving gives successors to instructions only. -/
theorem Flow.next_of_mem_succ (h : resolve f = .ok flow) {js : List Nat}
    (hjs : flow.succ[n]? = some js) (hk : k ∈ js) : ∃ i, f.code[n]? = some i ∧ f.Next n i k := by
  cases hi : f.code[n]? with
  | some i =>
      obtain ⟨js', hjs', hsucc⟩ := succ_of_resolve h hi
      rw [hjs] at hjs'
      cases hjs'
      exact ⟨i, rfl, ((mem_successors hsucc).mp hk).1⟩
  | none =>
      have hlength := length_succ_of_resolve h
      have hn : n < flow.succ.length := (List.getElem?_eq_some_iff.mp hjs).1
      have hn' := List.getElem?_eq_none_iff.mp hi
      omega

theorem Func.getElem?_rename :
    (f.rename ρ).code[n]? = some j ↔ ∃ i, f.code[n]? = some i ∧ i.mapOperands ρ = j := by
  simp [rename]

/-- New names of operands leave the control flow as it is. -/
theorem Func.next_rename : (f.rename ρ).Next n (i.mapOperands ρ) k ↔ f.Next n i k := by
  have hfalls : (i.mapOperands ρ).fallsThrough = i.fallsThrough := by cases i <;> rfl
  have htargets : (i.mapOperands ρ).targets = i.targets := by cases i <;> rfl
  simp only [Next, hfalls, htargets, labelIndex?_rename]

/-! ## Definitions of registers -/

/-- An instruction defines what it writes, and a call the registers that a callee may change. -/
theorem Instr.mem_defs {d : Operand} :
    d ∈ i.defs c → i.dest? = some d ∨ ∃ y ∈ c.callerSave, d = .reg y := by
  cases i with
  | call callee args =>
      intro hd
      obtain ⟨y, hy, rfl⟩ := List.mem_map.mp hd
      exact .inr ⟨y, hy, rfl⟩
  | _ => simp +contextual [defs, dest?]

theorem Instr.mem_defs_of_dest? {d : Operand} (h : i.dest? = some d) : d ∈ i.defs c := by
  cases i <;> simp_all [defs, dest?]

/-- Spilling makes no instruction write a register that was not written. -/
theorem Spill.Made.dest? {v : Var} {used : List Var} (h : Made v used i j)
    (hj : j.dest? = some (.reg x)) : i.dest? = some (.reg x) := by
  cases h with
  | plain _ => cases i <;> exact hj
  | slot hfold =>
      cases hfold with
      | moveTo _ => cases hj
      | updateTo _ _ => cases hj
      | moveFrom _ => exact hj
      | updateFrom _ _ => exact hj
  | @work t _ _ _ =>
      rw [Instr.dest?_mapOperands] at hj
      obtain ⟨d, hd, hname⟩ := Option.map_eq_some_iff.mp hj
      rw [← Instr.dest?_raiseSlots, hd]
      cases d with
      | var w =>
          unfold Operand.rename at hname
          split at hname <;> cases hname
      | _ => exact congrArg some hname
  | load _ _ _ => cases hj
  | store _ _ _ => cases hj

/-! ## What is live on the way -/

/-- The function does not write callee-saved registers. -/
def Func.SparesCalleeSave (c : Convention) (f : Func) : Prop :=
  ∀ i ∈ f.code, ∀ x ∈ c.calleeSave, i.dest? ≠ some (.reg x)

/-- A callee-saved register is live wherever a return can be reached. -/
theorem Func.SparesCalleeSave.live (hF : F.SparesCalleeSave c)
    (hdisj : ∀ y ∈ c.callerSave, y ∉ c.calleeSave) (hx : x ∈ c.calleeSave)
    (hflow : Flow.resolve (F.rename ρ) = .ok flow) (h : flow.ReachesReturn (F.rename ρ) n) :
    Live c F n (.reg x) := by
  induction h with
  | here hret =>
      obtain ⟨i, hi, hname⟩ := Func.getElem?_rename.mp hret
      obtain rfl : i = .ret := by cases i <;> first | rfl | cases hname
      exact .used hi (List.mem_map.mpr ⟨x, List.mem_cons_of_mem _ hx, rfl⟩)
  | next hjs hk _ ih =>
      obtain ⟨j, hj, hnext⟩ := Flow.next_of_mem_succ hflow hjs hk
      obtain ⟨i, hi, rfl⟩ := Func.getElem?_rename.mp hj
      refine .kept hi (Func.next_rename.mp hnext) ih fun hdef => ?_
      rcases Instr.mem_defs hdef with hdest | ⟨y, hy, hxy⟩
      · exact hF i (List.mem_of_getElem? hi) x hx hdest
      · cases hxy
        exact hdisj x hy hx

/-- On the way to a return nothing gets a new name that is a callee-saved register, but the target
of a move from that register. -/
theorem Renaming.eq_mov_of_reachesReturn (hρ : Renaming c F (Live c F) ρ)
    (hF : F.SparesCalleeSave c) (hdisj : ∀ y ∈ c.callerSave, y ∉ c.calleeSave)
    (hx : x ∈ c.calleeSave) (hflow : Flow.resolve (F.rename ρ) = .ok flow)
    (hj : (F.rename ρ).code[n]? = some j) (hdest : j.dest? = some (.reg x))
    (h : flow.ReachesReturn (F.rename ρ) n) : j = .mov (.reg x) (.reg x) := by
  obtain ⟨i, hi, rfl⟩ := Func.getElem?_rename.mp hj
  obtain ⟨d, hd, hname⟩ := Option.map_eq_some_iff.mp (Instr.dest?_mapOperands ρ i ▸ hdest)
  cases h with
  | here hret =>
      -- a return writes nothing
      rw [hj, Option.some.injEq] at hret
      rw [hret] at hdest
      cases hdest
  | next hjs hk hreach =>
      obtain ⟨i', hi', hnext⟩ := Flow.next_of_mem_succ hflow hjs hk
      rw [hj] at hi'
      cases hi'
      have hlive : Live c F _ (.reg x) := hF.live hdisj hx hflow hreach
      have hsame : ρ d = ρ (.reg x) := by rw [hname, hρ.reg]
      rcases hρ.apart hi (Func.next_rename.mp hnext) hlive (Instr.mem_defs_of_dest? hd) hsame
        with rfl | rfl
      · exact absurd hd (hF i (List.mem_of_getElem? hi) x hx)
      · rw [Instr.mapOperands, hname, hρ.reg]

/-! ## Allocated functions -/

namespace Func

/-- Callee-saved registers are preserved: if a function does not write them and a call does not
change them, then an allocated function writes one on the way to a return only by a move to
itself. -/
theorem allocate_calleeSave (hsp : c.stackPointer = Reg.rsp)
    (hdisj : ∀ y ∈ c.callerSave, y ∉ c.calleeSave) (hf : f.SparesCalleeSave c)
    (h : f.allocate c = .ok r) :
    ∃ flow, Flow.resolve r = .ok flow ∧ ∀ n i x, r.code[n]? = some i → flow.ReachesReturn r n →
      x ∈ c.calleeSave → i.dest? = some (.reg x) → i = .mov (.reg x) (.reg x) := by
  obtain ⟨flow, hflow⟩ := Flow.resolve_eq_ok_iff.mpr (allocate_resolves h)
  obtain ⟨p, F, live, g, _, hc, _, hF, hex, hcolor, rfl⟩ := Machine.allocate_eq_ok h
  have hacc := Convention.check_eq_ok_iff.mp hc
  have hspares : F.SparesCalleeSave c :=
    Machine.forall_of_spillAll (fun hmade hi x hx hj => hi x hx (hmade.dest? hj)) hF hf
  have hρ := (hex.proper hacc hcolor).toRenaming hex.solution hex.build (hsp ▸ hacc.stackPointer)
  exact ⟨flow, hflow, fun n i x hi hreach hx hdest =>
    hρ.eq_mov_of_reachesReturn hspares hdisj hx hflow hi hdest hreach⟩

end Func

/-- A convention with two registers for variables and one that a callee keeps. -/
def Convention.keeping : Convention where
  palette := [.rbx, .rax, .rcx]
  stackPointer := .rsp
  shiftCount := .rcx
  result := .rax
  args := [.rcx]
  callerSave := [.rax, .rcx]
  calleeSave := [.rbx]

/-- A function that copies a callee-saved register, with a loop and with more live variables than
there are registers that may be changed. -/
def Func.copying : Func where
  name := ⟨"copying"⟩
  args := 0
  locals := 0
  code := [
    .mov (.var ⟨"s"⟩) (.reg .rbx), .mov (.var ⟨"x"⟩) (.num 1), .mov (.var ⟨"y"⟩) (.num 2),
    .label ⟨"again"⟩, .arith .add (.var ⟨"x"⟩) (.var ⟨"y"⟩),
    .cjump .lt (.var ⟨"x"⟩) (.reg .rax) ⟨"again"⟩ ⟨"out"⟩, .label ⟨"out"⟩,
    .mov (.reg .rax) (.var ⟨"x"⟩), .ret]

theorem Func.allocate_calleeSave_copying : copying.SparesCalleeSave .keeping ∧
    ∃ r flow, copying.allocate .keeping = .ok r ∧ Flow.resolve r = .ok flow ∧
      flow.ReachesReturn r 0 ∧ r.code[0]? = some (.mov (.reg .rbx) (.reg .rbx)) := by
  have hspares : copying.SparesCalleeSave .keeping := by
    unfold SparesCalleeSave
    decide
  have hcode : (copying.allocate .keeping).toOption.map (fun r =>
        ((Flow.resolve r).toOption.map Flow.succ, r.code[0]?.bind Instr.dest?, r.code[10]?)) =
      some (some [[1], [2], [3], [4], [5], [6], [7], [3, 8], [9], [10], []],
        some (.reg .rbx), some .ret) := by
    decide +kernel
  obtain ⟨r, hr, hcode⟩ := Option.map_eq_some_iff.mp hcode
  rw [toOption_eq_some] at hr
  obtain ⟨flow, hflow, hself⟩ := allocate_calleeSave rfl (by decide) hspares hr
  simp only [Except.toOption, Option.map_some, hflow, Option.some.injEq, Prod.mk.injEq] at hcode
  obtain ⟨hsucc, hwrite, hret⟩ := hcode
  have hreach : flow.ReachesReturn r 0 := by
    have hnext : ∀ n < 10, n + 1 ∈ flow.succ[n]?.getD [] := by
      rw [hsucc]
      decide
    refine Nat.decreasingInduction (n := 10) (fun n hn hreach => ?_) (.here hret) (Nat.zero_le 10)
    have hmem := hnext n hn
    cases hjs : flow.succ[n]? with
    | none => simp [hjs] at hmem
    | some js => exact .next hjs (by simpa [hjs] using hmem) hreach
  obtain ⟨i, hi, hdest⟩ := Option.bind_eq_some_iff.mp hwrite
  refine ⟨hspares, r, flow, hr, hflow, hreach, ?_⟩
  rw [hi, hself 0 i .rbx hi hreach (by decide) hdest]

end Spillway
