import Spillway.Proofs.Liveness.Paths
import Spillway.Proofs.Semantics.Basic

/-!
# Rewritten instructions

Renaming operands and moving stack slots are both rewritings of single instructions
(`Instr.rewrite`): every operand is replaced, and every offset of a memory operand is changed. The
action of a rewritten instruction is the action of the instruction with its destination replaced
(`action_rewrite`), provided that the two states agree on what the instruction reads.
-/

namespace Spillway

namespace State

variable {w : World} {s : State} {x y : Operand} {n : Int64} {c d : Cell}

/-! ## What a change leaves alone -/

@[simp] theorem pc_set : (s.set x n).pc = s.pc := by
  cases x <;> rfl

@[simp] theorem frame_set : (s.set x n).frame = s.frame := by
  cases x <;> rfl

@[simp] theorem heap_set : (s.set x n).heap = s.heap := by
  cases x <;> rfl

@[simp] theorem pc_write : (s.write c n).pc = s.pc := by
  cases c <;> rfl

@[simp] theorem regs_write : (s.write c n).regs = s.regs := by
  cases c <;> rfl

@[simp] theorem vars_write : (s.write c n).vars = s.vars := by
  cases c <;> rfl

@[simp] theorem value_write : (s.write c n).value w x = s.value w x := by
  cases c <;> cases x <;> rfl

@[simp] theorem value_advance : s.advance.value w x = s.value w x := by
  cases x <;> rfl

@[simp] theorem read_advance : s.advance.read c = s.read c := by
  cases c <;> rfl

@[simp] theorem pc_advance : s.advance.pc = s.pc + 1 := rfl

@[simp] theorem regs_advance : s.advance.regs = s.regs := rfl

@[simp] theorem vars_advance : s.advance.vars = s.vars := rfl

@[simp] theorem frame_advance : s.advance.frame = s.frame := rfl

@[simp] theorem heap_advance : s.advance.heap = s.heap := rfl

/-! ## What a change does -/

theorem value_set_self (hx : x.reg?.isSome ∨ x.var?.isSome) : (s.set x n).value w x = n := by
  cases x with
  | reg r => simp [set, value]
  | var v => simp [set, value]
  | num | label | runtime | hole => simp [Operand.reg?, Operand.var?] at hx

theorem value_set_of_ne (h : y ≠ x) : (s.set x n).value w y = s.value w y := by
  cases x with
  | reg r =>
      cases y with
      | reg r' =>
          have hr : r' ≠ r := fun e => h (congrArg Operand.reg e)
          simp [set, value, hr]
      | _ => rfl
  | var v =>
      cases y with
      | var v' =>
          have hv : v' ≠ v := fun e => h (congrArg Operand.var e)
          simp [set, value, hv]
      | _ => rfl
  | num | label | runtime | hole => rfl

theorem frame_write_frame (m m' : Int) :
    (s.write (.frame m) n).frame m' = if m' = m then n else s.frame m' := rfl

end State

/-! ## Rewriting -/

namespace Instr

/-- The operands whose values an instruction reads itself. -/
def inputs : Instr → List Operand
  | mov _ src => [src]
  | load _ base _ => [base]
  | stackArg .. => []
  | store base _ src => [base, src]
  | cmp _ _ l r => [l, r]
  | arith _ dst src => [dst, src]
  | arithLoad _ dst base _ => [dst, base]
  | memArith _ base _ src => [base, src]
  | shift _ dst src => [dst, src]
  | lea _ base index _ => [base, index]
  | inc dst | dec dst => [dst]
  | cjump _ l r _ _ => [l, r]
  | call callee _ => [callee]
  | goto _ | label _ | ret | hole => []

/-- The base and the offset of the memory operand of an instruction. -/
def memory? : Instr → Option (Operand × Int64)
  | load _ base off | store base off _ | arithLoad _ _ base off | memArith _ base off _ =>
    some (base, off)
  | _ => none

/-- The instruction with its operands replaced by `ρ` and its memory offsets changed by `δ`, which
is given the base as it was. -/
def rewrite (ρ : Operand → Operand) (δ : Operand → Int64 → Int64) : Instr → Instr
  | mov dst src => mov (ρ dst) (ρ src)
  | load dst base off => load (ρ dst) (ρ base) (δ base off)
  | stackArg dst off => stackArg (ρ dst) off
  | store base off src => store (ρ base) (δ base off) (ρ src)
  | cmp dst c l r => cmp (ρ dst) c (ρ l) (ρ r)
  | arith op dst src => arith op (ρ dst) (ρ src)
  | arithLoad op dst base off => arithLoad op (ρ dst) (ρ base) (δ base off)
  | memArith op base off src => memArith op (ρ base) (δ base off) (ρ src)
  | shift op dst src => shift op (ρ dst) (ρ src)
  | lea dst base index scale => lea (ρ dst) (ρ base) (ρ index) scale
  | inc dst => inc (ρ dst)
  | dec dst => dec (ρ dst)
  | cjump c l r yes no => cjump c (ρ l) (ρ r) yes no
  | call callee args => call (ρ callee) args
  | goto l => goto l
  | label l => label l
  | ret => ret
  | hole => hole

theorem mapOperands_eq_rewrite (ρ : Operand → Operand) (i : Instr) :
    i.mapOperands ρ = i.rewrite ρ fun _ off => off := by
  cases i <;> rfl

/-- An instruction depends on no operand that liveness does not count as used. -/
theorem inputs_subset_uses (c : Convention) (i : Instr) {x : Operand} (hx : x ∈ i.inputs) :
    x ∈ i.uses c := by
  cases i with
  | call callee args => exact List.mem_append_right _ hx
  | ret => cases hx
  | _ => exact hx

end Instr

/-- The action with its destination replaced by `ρ`, or its memory cell by `κ`. -/
def Action.rewrite (ρ : Operand → Operand) (κ : Cell → Cell) : Action → Action
  | set dst x => set (ρ dst) x
  | write c x => write (κ c) x
  | a => a

/-- A rewritten instruction does the rewritten action in a state that agrees with the old one on
the operands and on the memory that the instruction reads. -/
theorem action_rewrite {w : World} {s t : State} {locals locals' : Int64} {ρ : Operand → Operand}
    {δ : Operand → Int64 → Int64} {κ : Cell → Cell} (i : Instr)
    (hval : ∀ x ∈ i.inputs, t.value w (ρ x) = s.value w x)
    (hcell : ∀ base off, i.memory? = some (base, off) →
      t.cell w (ρ base) (δ base off) = κ (s.cell w base off) ∧
      t.read (κ (s.cell w base off)) = s.read (s.cell w base off))
    (harg : ∀ dst off, i = .stackArg dst off →
      t.read (.frame (argumentCell locals' off).toInt) =
        s.read (.frame (argumentCell locals off).toInt)) :
    (i.rewrite ρ δ).action w locals' t = (i.action w locals s).rewrite ρ κ := by
  cases i with
  | mov dst src =>
      simp only [Instr.rewrite, Instr.action, Action.rewrite, hval src (by simp [Instr.inputs])]
  | load dst base off =>
      obtain ⟨hc, hr⟩ := hcell base off rfl
      simp only [Instr.rewrite, Instr.action, Action.rewrite, hc, hr]
  | stackArg dst off =>
      simp only [Instr.rewrite, Instr.action, Action.rewrite, harg dst off rfl]
  | store base off src =>
      obtain ⟨hc, _⟩ := hcell base off rfl
      simp only [Instr.rewrite, Instr.action, Action.rewrite, hc, hval src (by simp [Instr.inputs])]
  | cmp dst c l r =>
      simp only [Instr.rewrite, Instr.action, Action.rewrite, hval l (by simp [Instr.inputs]),
        hval r (by simp [Instr.inputs])]
  | arith op dst src =>
      simp only [Instr.rewrite, Instr.action, Action.rewrite, hval dst (by simp [Instr.inputs]),
        hval src (by simp [Instr.inputs])]
  | arithLoad op dst base off =>
      obtain ⟨hc, hr⟩ := hcell base off rfl
      simp only [Instr.rewrite, Instr.action, Action.rewrite, hc, hr,
        hval dst (by simp [Instr.inputs])]
  | memArith op base off src =>
      obtain ⟨hc, hr⟩ := hcell base off rfl
      simp only [Instr.rewrite, Instr.action, Action.rewrite, hc, hr,
        hval src (by simp [Instr.inputs])]
  | shift op dst src =>
      simp only [Instr.rewrite, Instr.action, Action.rewrite, hval dst (by simp [Instr.inputs]),
        hval src (by simp [Instr.inputs])]
  | lea dst base index scale =>
      simp only [Instr.rewrite, Instr.action, Action.rewrite, hval base (by simp [Instr.inputs]),
        hval index (by simp [Instr.inputs])]
  | inc dst | dec dst =>
      simp only [Instr.rewrite, Instr.action, Action.rewrite, hval dst (by simp [Instr.inputs])]
  | cjump c l r yes no =>
      simp only [Instr.rewrite, Instr.action, Action.rewrite, hval l (by simp [Instr.inputs]),
        hval r (by simp [Instr.inputs])]
  | call callee args =>
      simp only [Instr.rewrite, Instr.action, Action.rewrite, hval callee (by simp [Instr.inputs])]
  | goto l | label l | ret | hole => rfl

/-! ## What an action tells of its instruction -/

namespace Instr

variable {w : World} {locals : Int64} {s : State} {i : Instr}

theorem dest?_of_action_set {dst : Operand} {x : Int64} (h : i.action w locals s = .set dst x) :
    i.dest? = some dst := by
  cases i <;> simp only [action, Action.set.injEq, reduceCtorEq] at h <;> exact congrArg some h.1

theorem of_action_set {dst : Operand} {x : Int64} (c : Convention)
    (h : i.action w locals s = .set dst x) : i.defs c = [dst] ∧ i.fallsThrough = true := by
  cases i <;> simp only [action, Action.set.injEq, reduceCtorEq] at h <;>
    (cases h.1; exact ⟨rfl, rfl⟩)

theorem action_of_dest? (w : World) (locals : Int64) (s : State) {dst : Operand}
    (h : i.dest? = some dst) : ∃ x, i.action w locals s = .set dst x := by
  cases i <;> first | (cases h; exact ⟨_, rfl⟩) | cases h

theorem of_action_write {d : Cell} {x : Int64} (c : Convention)
    (h : i.action w locals s = .write d x) : i.defs c = [] ∧ i.fallsThrough = true := by
  cases i <;> simp only [action, reduceCtorEq] at h <;> exact ⟨rfl, rfl⟩

theorem of_action_skip (c : Convention) (h : i.action w locals s = .skip) :
    i.defs c = [] ∧ i.fallsThrough = true := by
  cases i with
  | label l => exact ⟨rfl, rfl⟩
  | _ => simp only [action, reduceCtorEq] at h

theorem of_action_jump {l : Label} (c : Convention) (h : i.action w locals s = .jump l) :
    i.defs c = [] ∧ l ∈ i.targets := by
  cases i <;> simp only [action, Action.jump.injEq, reduceCtorEq] at h <;> refine ⟨rfl, ?_⟩ <;>
    rw [← h]
  · split <;> simp [targets]
  · exact List.mem_singleton.mpr rfl

theorem of_action_leave (h : i.action w locals s = .leave) : i = .ret := by
  cases i <;> simp only [action, reduceCtorEq] at h
  rfl

theorem of_action_stop (h : i.action w locals s = .stop) : i = .hole := by
  cases i <;> simp only [action, reduceCtorEq] at h
  rfl

theorem of_action_call {x args : Int64} (h : i.action w locals s = .call x args) :
    ∃ callee, i = .call callee args ∧ x = s.value w callee := by
  cases i <;> simp only [action, Action.call.injEq, reduceCtorEq] at h
  rename_i callee n
  exact ⟨callee, by rw [h.2], h.1.symm⟩

end Instr

end Spillway
