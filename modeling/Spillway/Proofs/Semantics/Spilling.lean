import Spillway.Proofs.Frame.Spilled
import Spillway.Proofs.Semantics.Rewriting
import Spillway.Proofs.Semantics.Simulation

/-!
# Spilling keeps the meaning of a function

The spilled variable is in the lowest slot, and the frame above it has moved up by one slot
(`InSlot`). From related states, one instruction of the function does what the instructions of its
window do (`Spill.agrees_steps`, `Spill.simulates`). Every frame offset of the function has to leave
room for the move, and stack arguments have to lie above the slots (`Func.FrameFits`,
`Func.StackArgsAbove`).
-/

namespace Spillway

/-! ## Frame offsets -/

/-- The offsets from the stack pointer that an instruction of a function with so many slots
accesses. -/
def Instr.frameOffsets (locals : Int64) : Instr → List Int64
  | stackArg _ off => [argumentCell locals off]
  | load _ base off | store base off _ | arithLoad _ _ base off | memArith _ base off _ =>
    if base = .rsp then [off] else []
  | _ => []

/-- No stack argument of the function lies below the stack pointer. -/
def Func.StackArgsAbove (f : Func) : Prop :=
  ∀ dst off, .stackArg dst off ∈ f.code → 0 ≤ argumentCell f.locals off

/-- With `n` more slots below them, all frame cells of the function still have a 64-bit offset, and
so has the lowest of the slots. -/
structure Func.FrameFits (f : Func) (n : Nat) : Prop where
  slot : 8 * (n : Int) ≤ Int64.maxValue.toInt
  offset : ∀ i ∈ f.code, ∀ m ∈ i.frameOffsets f.locals,
    m.toInt + 8 * (n : Int) ≤ Int64.maxValue.toInt

theorem Func.frameFits_iff {f : Func} {n : Nat} :
    (8 * (n : Int) ≤ Int64.maxValue.toInt ∧
      (f.code.all fun i => (i.frameOffsets f.locals).all fun m =>
        m.toInt + 8 * (n : Int) ≤ Int64.maxValue.toInt) = true) ↔ f.FrameFits n := by
  simp only [List.all_eq_true, decide_eq_true_eq]
  exact ⟨fun h => ⟨h.1, h.2⟩, fun h => ⟨h.slot, h.offset⟩⟩

instance Func.decidableFrameFits (f : Func) (n : Nat) : Decidable (f.FrameFits n) :=
  decidable_of_iff _ Func.frameFits_iff

/-- Adding to a 64-bit integer does not wrap when the sum has 64 bits. -/
theorem toInt_add_eight {m : Int64} (h : m.toInt + 8 ≤ Int64.maxValue.toInt) :
    (m + 8).toInt = m.toInt + 8 := by
  have hlo : -9223372036854775808 ≤ m.toInt := m.le_toInt
  have hmax : Int64.maxValue.toInt = 9223372036854775807 := by decide
  have h8 : (8 : Int64).toInt = 8 := by decide
  rw [Int64.toInt_add, h8]
  apply Int.bmod_eq_of_le
  · show -9223372036854775808 ≤ m.toInt + 8
    omega
  · show m.toInt + 8 < 9223372036854775808
    omega

/-- One more slot moves stack arguments up by a slot. -/
theorem argumentCell_succ (locals off : Int64) :
    argumentCell (locals + 1) off = argumentCell locals off + 8 := by
  unfold argumentCell
  rw [Int64.mul_add, ← Int64.add_assoc, Int64.mul_one]

/-- The cell of the frame or the heap once there is a new lowest slot. -/
def raisedCell : Cell → Cell
  | .frame m => .frame (if 0 ≤ m then m + 8 else m)
  | .heap a => .heap a

/-! ## States -/

/-- The variable `v` of the first state is in the lowest slot of the second one. -/
structure InSlot (f : Func) (v : Var) (s t : State) : Prop where
  regs : t.regs = s.regs
  heap : t.heap = s.heap
  vars : ∀ x ∈ f.vars, x ≠ v → t.vars x = s.vars x
  below : ∀ m : Int, m < 0 → t.frame m = s.frame m
  above : ∀ m : Int, 0 ≤ m → t.frame (m + 8) = s.frame m
  slot : t.frame 0 = s.vars v

namespace InSlot

variable {f : Func} {v : Var} {s t : State}

theorem goto (h : InSlot f v s t) (m n : Nat) :
    InSlot f v { s with pc := m } { t with pc := n } :=
  ⟨h.regs, h.heap, h.vars, h.below, h.above, h.slot⟩

/-- Writing a register or a variable of both. -/
theorem set (h : InSlot f v s t) {dst : Operand} (hv : dst ≠ .var v) (n : Int64) :
    InSlot f v (s.set dst n) (t.set dst n) := by
  cases dst with
  | reg r =>
      refine ⟨?_, h.heap, h.vars, h.below, h.above, h.slot⟩
      simp [State.set, h.regs]
  | var x =>
      have hx : v ≠ x := fun e => hv (congrArg Operand.var e.symm)
      refine ⟨h.regs, h.heap, fun y hy hyv => ?_, h.below, h.above, ?_⟩
      · simp only [State.set]
        split
        · rfl
        · exact h.vars y hy hyv
      · simpa [State.set, hx] using h.slot
  | num | label | runtime | hole => exact h

/-- Writing a variable that the function does not have. -/
theorem set_temp (h : InSlot f v s t) {x : Var} (hx : x ∉ f.vars) (n : Int64) :
    InSlot f v s (t.set (.var x) n) := by
  refine ⟨h.regs, h.heap, fun y hy hyv => ?_, h.below, h.above, h.slot⟩
  have hyx : y ≠ x := fun e => hx (e ▸ hy)
  simpa [State.set, hyx] using h.vars y hy hyv

/-- Writing the spilled variable is writing its slot. -/
theorem set_slot (h : InSlot f v s t) (n : Int64) :
    InSlot f v (s.set (.var v) n) (t.write (.frame 0) n) := by
  refine ⟨h.regs, h.heap, fun y hy hyv => ?_, fun m hm => ?_, fun m hm => ?_, ?_⟩
  · simpa [State.set, hyv] using h.vars y hy hyv
  · have hne : m ≠ 0 := by omega
    simpa [State.frame_write_frame, hne] using h.below m hm
  · have hne : m + 8 ≠ 0 := by omega
    simpa [State.frame_write_frame, hne] using h.above m hm
  · simp [State.frame_write_frame, State.set]

/-- Writing memory. -/
theorem write (h : InSlot f v s t) (c : Cell) (n : Int64) :
    InSlot f v (s.write c n) (t.write (raisedCell c) n) := by
  cases c with
  | heap a =>
      refine ⟨h.regs, ?_, h.vars, h.below, h.above, h.slot⟩
      simp [State.write, raisedCell, h.heap]
  | frame m =>
      refine ⟨h.regs, h.heap, h.vars, fun k hk => ?_, fun k hk => ?_, ?_⟩
      · simp only [raisedCell, State.frame_write_frame]
        have hiff : (k = if 0 ≤ m then m + 8 else m) ↔ k = m := by split <;> omega
        rw [if_congr hiff rfl (h.below k hk)]
      · simp only [raisedCell, State.frame_write_frame]
        have hiff : (k + 8 = if 0 ≤ m then m + 8 else m) ↔ k = m := by split <;> omega
        rw [if_congr hiff rfl (h.above k hk)]
      · have hne : (0 : Int) ≠ if 0 ≤ m then m + 8 else m := by split <;> omega
        simp only [raisedCell, State.frame_write_frame, if_neg hne, State.vars_write]
        exact h.slot

theorem scope_eq (h : InSlot f v s t) : t.scope = s.scope := by
  unfold State.scope
  rw [h.regs, h.heap]
  congr 1
  funext n
  exact h.below _ (Int.negSucc_lt_zero n)

/-- Returning from a call. -/
theorem withScope (h : InSlot f v s t) (out : Scope) :
    InSlot f v (s.withScope out) (t.withScope out) := by
  refine ⟨rfl, rfl, h.vars, fun m hm => ?_, fun m hm => ?_, h.slot⟩
  · cases m with
    | ofNat n => exact absurd hm (by simp)
    | negSucc n => rfl
  · cases m with
    | ofNat n => exact h.above n (Int.natCast_nonneg n)
    | negSucc n => exact absurd hm (by simp)

/-- Operands other than the spilled variable have the same value. -/
theorem value_eq (h : InSlot f v s t) (w : World) {x : Operand} (hx : x ≠ .var v)
    (hvars : ∀ y, x = .var y → y ∈ f.vars) : t.value w x = s.value w x := by
  cases x with
  | reg r => exact congrFun h.regs r
  | var y => exact h.vars y (hvars y rfl) fun e => hx (congrArg Operand.var e)
  | num | label | runtime | hole => rfl

/-- Memory reads the same at the raised cell. -/
theorem read_raised (h : InSlot f v s t) (c : Cell) : t.read (raisedCell c) = s.read c := by
  cases c with
  | heap a => exact congrFun h.heap a
  | frame m =>
      show t.frame (if 0 ≤ m then m + 8 else m) = s.frame m
      split
      · exact h.above m ‹_›
      · exact h.below m (by omega)

end InSlot

/-! ## Instructions -/

namespace Instr

theorem raiseSlots_mapOperands (ρ : Operand → Operand) (i : Instr) :
    i.raiseSlots.mapOperands ρ = i.rewrite ρ raised := by
  cases i <;> rfl

@[simp] theorem dest?_raiseSlots (i : Instr) : i.raiseSlots.dest? = i.dest? := by
  cases i <;> rfl

@[simp] theorem inputs_raiseSlots (i : Instr) : i.raiseSlots.inputs = i.inputs := by
  cases i <;> rfl

/-- An instruction reads a variable exactly if its action depends on it. -/
theorem reads_iff {i : Instr} {v : Var} : i.reads v = true ↔ .var v ∈ i.inputs := by
  cases i with
  | mov dst src => simp [reads, inputs, eq_comm]
  | load dst base off => simp [reads, inputs, eq_comm]
  | stackArg dst off => simp [reads, inputs]
  | cmp dst c l r => simp [reads, inputs, @eq_comm _ (Operand.var v)]
  | lea dst base index scale => simp [reads, inputs, @eq_comm _ (Operand.var v)]
  | _ => exact references_var

theorem inputs_subset_slots {i : Instr} {x : Operand} (h : x ∈ i.inputs) : x ∈ i.slots := by
  cases i <;> simp_all [inputs, slots]

theorem base_mem_inputs {i : Instr} {base : Operand} {off : Int64}
    (h : i.memory? = some (base, off)) : base ∈ i.inputs := by
  cases i <;> simp only [memory?, Option.some.injEq, Prod.mk.injEq, reduceCtorEq] at h <;>
    simp [inputs, h.1]

theorem mem_frameOffsets {i : Instr} {off : Int64} (locals : Int64)
    (h : i.memory? = some (.rsp, off)) : off ∈ i.frameOffsets locals := by
  cases i <;> simp only [memory?, Option.some.injEq, Prod.mk.injEq, reduceCtorEq] at h <;>
    simp [frameOffsets, h.1, h.2]

end Instr

namespace InSlot

variable {f : Func} {v : Var} {w : World} {s t : State} {i : Instr} {ρ : Operand → Operand}

/-- The cell of a raised memory operand is the raised cell. -/
theorem cell_eq (hfit : f.FrameFits 1) (hi : i ∈ f.code)
    (hval : ∀ x ∈ i.inputs, t.value w (ρ x) = s.value w x)
    (hρ : ∀ x, ρ x = .rsp ↔ x = .rsp) {base : Operand} {off : Int64}
    (hmem : i.memory? = some (base, off)) :
    t.cell w (ρ base) (raised base off) = raisedCell (s.cell w base off) := by
  unfold State.cell
  by_cases hb : base = .rsp
  · rw [if_pos hb, if_pos ((hρ base).mpr hb)]
    subst hb
    have hoff := hfit.offset i hi off (Instr.mem_frameOffsets f.locals hmem)
    have hnn : (0 : Int64) ≤ off ↔ 0 ≤ off.toInt := by
      rw [Int64.le_iff_toInt_le]
      rfl
    simp only [raisedCell, raised, true_and, hnn, Cell.frame.injEq]
    -- an offset below the stack pointer is no slot, and stays
    split
    · exact toInt_add_eight (by simpa using hoff)
    · rfl
  · rw [if_neg hb, if_neg fun h => hb ((hρ base).mp h), hval base (Instr.base_mem_inputs hmem)]
    simp [raisedCell, raised, hb]

/-- The raised instruction, with its operands renamed, does the raised action of the instruction. -/
theorem action_eq (h : InSlot f v s t) (hargs : f.StackArgsAbove) (hfit : f.FrameFits 1)
    (hi : i ∈ f.code) (hval : ∀ x ∈ i.inputs, t.value w (ρ x) = s.value w x)
    (hρ : ∀ x, ρ x = .rsp ↔ x = .rsp) :
    (i.raiseSlots.mapOperands ρ).action w (f.locals + 1) t =
      (i.action w f.locals s).rewrite ρ raisedCell := by
  rw [Instr.raiseSlots_mapOperands]
  refine action_rewrite i hval (fun base off hmem => ?_) (fun dst off hi' => ?_)
  · exact ⟨cell_eq hfit hi hval hρ hmem, h.read_raised _⟩
  · subst hi'
    have hoff := hfit.offset _ hi (argumentCell f.locals off) (List.mem_singleton.mpr rfl)
    have hnn : 0 ≤ (argumentCell f.locals off).toInt := Int64.le_iff_toInt_le.mp (hargs dst off hi)
    rw [argumentCell_succ, toInt_add_eight (by simpa using hoff)]
    exact h.above _ hnn

end InSlot

/-! ## Windows -/

/-- States at the start of an instruction and of its window. -/
structure Spill.Related (ws : List (List Instr)) (f : Func) (v : Var) (s t : State) : Prop where
  pc : t.pc = Spill.position ws s.pc
  inSlot : InSlot f v s t

theorem Func.step_of_getElem? {f : Func} {w : World} {s : State} {i : Instr}
    (h : f.code[s.pc]? = some i) : f.step w s = s.perform w f (i.action w f.locals s) := by
  unfold Func.step
  rw [h]

/-- Performing an action that does not write the spilled variable. -/
theorem Spill.agrees_perform {w : World} {f g : Func} {v : Var}
    {ws : List (List Instr)} {s t : State} {ρ : Operand → Operand} {a : Action}
    (hlabel : ∀ l, g.labelIndex? l = (f.labelIndex? l).map (Spill.position ws))
    (h : InSlot f v s t) (hpc : t.pc + 1 = Spill.position ws (s.pc + 1))
    (hset : ∀ dst n, a = .set dst n → dst ≠ .var v ∧ ρ dst = dst) :
    Outcome.Agrees (Spill.Related ws f v) (s.perform w f a)
      (t.perform w g (a.rewrite ρ raisedCell)) := by
  cases a with
  | set dst n =>
      obtain ⟨hv, hρ⟩ := hset dst n rfl
      simp only [Action.rewrite, hρ]
      exact .running ⟨by simpa using hpc, (h.set hv n).goto _ _⟩
  | write d n => exact .running ⟨by simpa using hpc, (h.write d n).goto _ _⟩
  | jump l =>
      simp only [Action.rewrite, State.perform, hlabel]
      cases f.labelIndex? l with
      | none => exact .stuck
      | some j => exact .running ⟨rfl, h.goto _ _⟩
  | skip => exact .running ⟨hpc, h.goto _ _⟩
  | leave => exact .returned h.regs h.heap
  | call x args =>
      refine .running ⟨hpc, ?_⟩
      rw [h.scope_eq]
      exact (h.withScope _).goto _ _
  | stop => exact .stuck

namespace Spill

variable {w : World} {f g : Func} {v : Var} {ws : List (List Instr)} {s t : State} {i : Instr}

/-! ### One window after the other -/

/-- The value of an operand of an instruction that does not mention the spilled variable. -/
theorem value_plain (hrel : InSlot f v s t) (hi : i ∈ f.code) (hv : .var v ∉ i.slots) {x : Operand}
    (hx : x ∈ i.slots) : t.value w x = s.value w x := by
  refine hrel.value_eq w (fun h => hv (h ▸ hx)) fun y hy => ?_
  exact Func.mem_vars.mpr ⟨i, hi, hy ▸ hx⟩

/-- An instruction that does not mention the variable. -/
theorem agrees_plain (hg : Layout f v ws g) (hargs : f.StackArgsAbove) (hfit : f.FrameFits 1)
    (hrel : Related ws f v s t) (hi : f.code[s.pc]? = some i)
    (hwin : ws[s.pc]? = some [i.raiseSlots]) (hv : .var v ∉ i.slots) :
    Outcome.Agrees (Related ws f v) (f.step w s) (g.step w t) := by
  have hmem : i ∈ f.code := List.mem_of_getElem? hi
  have hcode : g.code[t.pc]? = some i.raiseSlots := by
    rw [hrel.pc]
    exact hg.getElem? hwin (k := 0) rfl
  rw [Func.step_of_getElem? hi, Func.step_of_getElem? hcode, hg.locals]
  have haction := hrel.inSlot.action_eq (w := w) (ρ := fun x => x) hargs hfit hmem
    (fun x hx => value_plain hrel.inSlot hmem hv (Instr.inputs_subset_slots hx)) (fun x => Iff.rfl)
  rw [Instr.mapOperands_id] at haction
  rw [haction]
  refine agrees_perform hg.labelIndex? hrel.inSlot ?_ fun dst n hset => ⟨?_, rfl⟩
  · rw [position_succ hwin, hrel.pc]
    rfl
  · have hdest := Instr.dest?_of_action_set hset
    exact fun h => hv (h ▸ Instr.mem_slots_of_dest? hdest)

/-- An instruction that works on the slot. -/
theorem agrees_slot {j : Instr} (hg : Layout f v ws g) (hrel : Related ws f v s t)
    (hi : f.code[s.pc]? = some i) (hwin : ws[s.pc]? = some [j]) (hj : Folded v i j) :
    Outcome.Agrees (Related ws f v) (f.step w s) (g.step w t) := by
  have hmem : i ∈ f.code := List.mem_of_getElem? hi
  have hcode : g.code[t.pc]? = some j := by
    rw [hrel.pc]
    exact hg.getElem? hwin (k := 0) rfl
  have hpc : t.pc + 1 = position ws (s.pc + 1) := by
    rw [position_succ hwin, hrel.pc]
    rfl
  have hvalue : ∀ x, x ∈ i.slots → x ≠ .var v → t.value w x = s.value w x := fun x hx hxv =>
    hrel.inSlot.value_eq w hxv fun y hy => Func.mem_vars.mpr ⟨i, hmem, hy ▸ hx⟩
  have hread : t.read (.frame 0) = s.vars v := hrel.inSlot.slot
  have hcell : t.cell w .rsp 0 = .frame 0 := rfl
  rw [Func.step_of_getElem? hi, Func.step_of_getElem? hcode]
  cases hj with
  | @moveTo src hsrc =>
      simp only [Instr.action, hcell, hvalue src (by simp [Instr.slots]) hsrc]
      exact .running ⟨by simpa using hpc, (hrel.inSlot.set_slot _).goto _ _⟩
  | @moveFrom dst hdst =>
      simp only [Instr.action, hcell, hread]
      exact .running ⟨by simpa using hpc, (hrel.inSlot.set hdst _).goto _ _⟩
  | @updateTo op src _ hsrc =>
      simp only [Instr.action, hcell, hread, hvalue src (by simp [Instr.slots]) hsrc]
      exact .running ⟨by simpa using hpc, (hrel.inSlot.set_slot _).goto _ _⟩
  | @updateFrom op dst _ hdst =>
      simp only [Instr.action, hcell, hread, hvalue dst (by simp [Instr.slots]) hdst]
      exact .running ⟨by simpa using hpc, (hrel.inSlot.set hdst _).goto _ _⟩

/-- Before the instruction that works on a temporary, the temporary has been loaded if the
instruction reads it. -/
theorem load_temp {x : Var} (hg : Layout f v ws g) (hx : x ∉ f.vars) (hrel : Related ws f v s t)
    (hi : f.code[s.pc]? = some i) (hwin : ws[s.pc]? = some (i.raiseSlots.throughTemp v x)) :
    ∃ t', g.run w (if i.raiseSlots.reads v then 1 else 0) t = .running t' ∧ InSlot f v s t' ∧
      t'.pc = t.pc + (if i.raiseSlots.reads v then 1 else 0) ∧
      ∀ y ∈ i.inputs, t'.value w (Operand.rename v x y) = s.value w y := by
  have hmem : i ∈ f.code := List.mem_of_getElem? hi
  -- the temporary is new, so no other operand sees it
  have hother : ∀ {t' : State}, InSlot f v s t' → ∀ y ∈ i.inputs, y ≠ .var v →
      t'.value w (Operand.rename v x y) = s.value w y := by
    intro t' hslot y hy hyv
    rw [Operand.rename, if_neg hyv]
    refine hslot.value_eq w hyv fun z hz => ?_
    exact Func.mem_vars.mpr ⟨i, hmem, hz ▸ Instr.inputs_subset_slots hy⟩
  cases hreads : i.raiseSlots.reads v with
  | false =>
      refine ⟨t, rfl, hrel.inSlot, rfl, fun y hy => hother hrel.inSlot y hy ?_⟩
      rintro rfl
      rw [← Instr.inputs_raiseSlots, ← Instr.reads_iff, hreads] at hy
      cases hy
  | true =>
      have hcode : g.code[t.pc]? = some (.load (.var x) .rsp 0) := by
        rw [hrel.pc]
        exact hg.getElem? hwin (Instr.throughTemp_load x hreads)
      have hstep : g.step w t = .running (t.set (.var x) (s.vars v)).advance := by
        rw [Func.step_of_getElem? hcode, ← hrel.inSlot.slot]
        rfl
      have hslot := (hrel.inSlot.set_temp hx (s.vars v)).goto s.pc (t.pc + 1)
      refine ⟨_, (Func.run_one t).trans hstep, hslot, by simp, fun y hy => ?_⟩
      by_cases hyv : y = .var v
      · rw [hyv, Operand.rename, if_pos rfl, State.value_advance,
          State.value_set_self (.inr rfl)]
        rfl
      · exact hother hslot y hy hyv

theorem rename_eq_rsp (v x : Var) (y : Operand) : Operand.rename v x y = .rsp ↔ y = .rsp := by
  unfold Operand.rename
  split
  · rename_i hy
    simp [hy]
  · exact Iff.rfl

/-- An instruction that works on a temporary. -/
theorem agrees_temp {x : Var} (hg : Layout f v ws g) (hargs : f.StackArgsAbove)
    (hfit : f.FrameFits 1) (hx : x ∉ f.vars) (hrel : Related ws f v s t)
    (hi : f.code[s.pc]? = some i) (hwin : ws[s.pc]? = some (i.raiseSlots.throughTemp v x)) :
    Outcome.Agrees (Related ws f v) (f.step w s)
      (g.run w (i.raiseSlots.throughTemp v x).length t) := by
  obtain ⟨t', hrun, hslot, hpc, hval⟩ := load_temp (w := w) hg hx hrel hi hwin
  have hmem : i ∈ f.code := List.mem_of_getElem? hi
  have hlen := position_succ hwin
  rw [Instr.length_throughTemp] at hlen
  rw [Instr.length_throughTemp, Nat.add_assoc, Func.run_add_of_running hrun]
  have hcode : g.code[t'.pc]? = some (i.raiseSlots.mapOperands (Operand.rename v x)) := by
    rw [hpc, hrel.pc]
    exact hg.getElem? hwin (Instr.throughTemp_work v x _)
  have haction := hslot.action_eq (w := w) hargs hfit hmem hval (rename_eq_rsp v x)
  have hstep : g.step w t' = t'.perform w g
      ((i.action w f.locals s).rewrite (Operand.rename v x) raisedCell) := by
    rw [Func.step_of_getElem? hcode, hg.locals, haction]
  rw [Func.step_of_getElem? hi]
  cases hwrites : i.raiseSlots.writes v with
  | false =>
      show Outcome.Agrees _ _ (g.run w 1 t')
      rw [Func.run_one, hstep]
      refine agrees_perform hg.labelIndex? hslot ?_ fun dst n hset => ?_
      · rw [hlen, hpc, hrel.pc, hwrites]
        rfl
      · have hdest := Instr.dest?_of_action_set hset
        have hdst : dst ≠ .var v := by
          rintro rfl
          simp [Instr.writes, hdest] at hwrites
        exact ⟨hdst, if_neg hdst⟩
  | true =>
      have hdest : i.dest? = some (.var v) := by simpa [Instr.writes] using hwrites
      obtain ⟨n, hset⟩ := Instr.action_of_dest? w f.locals s hdest
      -- the result goes to the temporary, and from there to the slot
      have hstep' : g.step w t' = .running (t'.set (.var x) n).advance := by
        rw [hstep, hset]
        simp [Action.rewrite, Operand.rename, State.perform]
      have hcode' : g.code[(t'.set (.var x) n).advance.pc]? = some (.store .rsp 0 (.var x)) := by
        rw [State.pc_advance, State.pc_set, hpc, hrel.pc]
        exact hg.getElem? hwin (Instr.throughTemp_store x hwrites)
      have hvalue : (t'.set (.var x) n).advance.value w (.var x) = n := by
        rw [State.value_advance]
        exact State.value_set_self (.inr rfl)
      have hcell : (t'.set (.var x) n).advance.cell w .rsp 0 = .frame 0 := rfl
      show Outcome.Agrees _ _ (g.run w (1 + 1) t')
      rw [Func.run_add_of_running ((Func.run_one t').trans hstep'), Func.run_one,
        Func.step_of_getElem? hcode', hset]
      simp only [Instr.action, State.perform, hvalue, hcell]
      refine .running ⟨?_, ?_⟩
      · simp only [State.pc_advance, State.pc_write, State.pc_set]
        rw [hlen, hpc, hrel.pc, hwrites]
        rfl
      · exact ((hslot.set_temp hx n).set_slot n).goto _ _

/-- Every instruction does what its window does. -/
theorem agrees_window {win : List Instr} (hg : Layout f v ws g) (hargs : f.StackArgsAbove)
    (hfit : f.FrameFits 1) (hrel : Related ws f v s t) (hwin : ws[s.pc]? = some win) :
    Outcome.Agrees (Related ws f v) (f.step w s) (g.run w win.length t) := by
  cases hi : f.code[s.pc]? with
  | none =>
      rw [hg.window_none hi] at hwin
      cases hwin
  | some i =>
      obtain ⟨win', hwin', hwindow⟩ := hg.window hi
      cases hwin.symm.trans hwin'
      cases hwindow with
      | plain hv =>
          rw [Instr.slots_raiseSlots] at hv
          show Outcome.Agrees _ _ (g.run w 1 t)
          rw [Func.run_one]
          exact agrees_plain hg hargs hfit hrel hi hwin hv
      | slot hj =>
          have hfold := Instr.folded_of_inSlot? hj
          rw [raiseSlots_of_inSlot? hj] at hfold
          show Outcome.Agrees _ _ (g.run w 1 t)
          rw [Func.run_one]
          exact agrees_slot hg hrel hi hwin hfold
      | temp _ _ hx _ => exact agrees_temp hg hargs hfit hx hrel hi hwin

/-- Past the last instruction both functions are over. -/
theorem agrees_end (hg : Layout f v ws g) (hrel : Related ws f v s t) (hwin : ws[s.pc]? = none) :
    Outcome.Agrees (Related ws f v) (f.step w s) (g.step w t) := by
  have hcode : g.code[t.pc]? = none := by
    rw [hrel.pc, hg.code]
    exact getElem?_position_none hwin
  unfold Func.step
  rw [hg.code_none hwin, hcode]
  exact .ended hrel.inSlot.regs hrel.inSlot.heap

/-- The number of steps that the window of a place takes. Past the last window it takes one step to
see that the function is over. -/
def steps (ws : List (List Instr)) (n : Nat) : Nat := (ws[n]?.map List.length).getD 1

theorem steps_pos (hg : Layout f v ws g) (n : Nat) : 0 < steps ws n := by
  unfold steps
  cases hwin : ws[n]? with
  | none => exact Nat.one_pos
  | some win => exact hg.window_length_pos hwin

/-- One step of a function and the steps of its window agree. -/
theorem agrees_steps (hg : Layout f v ws g) (hargs : f.StackArgsAbove) (hfit : f.FrameFits 1)
    (hrel : Related ws f v s t) :
    Outcome.Agrees (Related ws f v) (f.step w s) (g.run w (steps ws s.pc) t) := by
  unfold steps
  cases hwin : ws[s.pc]? with
  | none =>
      show Outcome.Agrees _ _ (g.run w 1 t)
      rw [Func.run_one]
      exact agrees_end hg hrel hwin
  | some win => exact agrees_window hg hargs hfit hrel hwin

theorem exists_agrees (hg : Layout f v ws g) (hargs : f.StackArgsAbove) (hfit : f.FrameFits 1)
    (hrel : Related ws f v s t) :
    ∃ k, Outcome.Agrees (Related ws f v) (f.step w s) (g.run w (k + 1) t) := by
  obtain ⟨k, hk⟩ := Nat.exists_eq_add_one.mpr (steps_pos hg s.pc)
  exact ⟨k, hk ▸ agrees_steps hg hargs hfit hrel⟩

/-- Every instruction is matched by its window. -/
theorem simulates {c : Convention} (hg : Layout f v ws g) (hargs : f.StackArgsAbove)
    (hfit : f.FrameFits 1) : Simulates c w f g (Related ws f v) := by
  intro s t hrel
  obtain ⟨k, hk⟩ := exists_agrees (w := w) hg hargs hfit hrel
  exact ⟨k, hk.toMatches c⟩

/-! ### What the frame of the spilled function looks like -/

/-- A frame offset of a made instruction is a raised one, one below the stack pointer or that of the
new slot. -/
theorem Made.frameOffsets {used : List Var} {j : Instr} (h : Made v used i j) (locals : Int64)
    {m : Int64} (hm : m ∈ j.frameOffsets (locals + 1)) :
    m = 0 ∨ ∃ m' ∈ i.frameOffsets locals, m = m' + 8 ∨ m = m' := by
  have hraised : ∀ {ρ : Operand → Operand}, (∀ x, ρ x = .rsp ↔ x = .rsp) →
      m ∈ (i.raiseSlots.mapOperands ρ).frameOffsets (locals + 1) →
      ∃ m' ∈ i.frameOffsets locals, m = m' + 8 ∨ m = m' := by
    intro ρ hρ hm
    have hoff : ∀ {base : Operand} {off : Int64},
        (m ∈ if ρ base = .rsp then [raised base off] else []) →
        ∃ m' ∈ (if base = .rsp then [off] else []), m = m' + 8 ∨ m = m' := by
      intro base off hmem
      by_cases hb : base = .rsp
      · rw [if_pos ((hρ base).mpr hb), List.mem_singleton] at hmem
        rw [if_pos hb]
        refine ⟨off, List.mem_singleton.mpr rfl, ?_⟩
        rw [hmem, raised]
        split
        · exact .inl rfl
        · exact .inr rfl
      · rw [if_neg fun h => hb ((hρ base).mp h)] at hmem
        cases hmem
    cases i with
    | stackArg dst off =>
        refine ⟨argumentCell locals off, List.mem_singleton.mpr rfl, .inl ?_⟩
        rw [← argumentCell_succ]
        exact List.mem_singleton.mp hm
    | load | store | arithLoad | memArith => exact hoff hm
    | _ => cases hm
  cases h with
  | plain _ =>
      refine .inr (hraised (ρ := fun x => x) (fun x => Iff.rfl) ?_)
      rwa [Instr.mapOperands_id]
  | slot hfold =>
      left
      cases hfold <;> exact List.mem_singleton.mp hm
  | @work t _ _ _ => exact .inr (hraised (rename_eq_rsp v t) hm)
  | load _ _ _ => exact .inl (List.mem_singleton.mp hm)
  | store _ _ _ => exact .inl (List.mem_singleton.mp hm)

theorem Made.eq_stackArg {used : List Var} {dst : Operand} {off : Int64}
    (h : Made v used i (.stackArg dst off)) : ∃ dst', i = .stackArg dst' off := by
  generalize hj : Instr.stackArg dst off = j at h
  cases h with
  | plain _ => cases i <;> first | (cases hj; exact ⟨_, rfl⟩) | cases hj
  | slot hfold => cases hfold <;> cases hj
  | work _ _ _ => cases i <;> first | (cases hj; exact ⟨_, rfl⟩) | cases hj
  | load _ _ _ => cases hj
  | store _ _ _ => cases hj

namespace Layout

/-- Stack arguments stay above the stack pointer. -/
theorem stackArgsAbove {n : Nat} (h : Layout f v ws g) (hargs : f.StackArgsAbove)
    (hfit : f.FrameFits (n + 1)) : g.StackArgsAbove := by
  intro dst off hmem
  obtain ⟨i, hi, hmade⟩ := h.made hmem
  obtain ⟨dst', rfl⟩ := hmade.eq_stackArg
  have hpos := Int64.le_iff_toInt_le.mp (hargs dst' off hi)
  have hoff := hfit.offset _ hi (argumentCell f.locals off) (List.mem_singleton.mpr rfl)
  rw [h.locals, argumentCell_succ, Int64.le_iff_toInt_le, toInt_add_eight (by omega)]
  have hzero : (0 : Int64).toInt = 0 := rfl
  omega

/-- Each spilled variable takes the room of one slot. -/
theorem frameFits {n : Nat} (h : Layout f v ws g) (hfit : f.FrameFits (n + 1)) : g.FrameFits n := by
  have hslot := hfit.slot
  refine ⟨by omega, fun j hj m hm => ?_⟩
  rw [h.locals] at hm
  obtain ⟨i, hi, hmade⟩ := h.made hj
  rcases hmade.frameOffsets f.locals hm with rfl | ⟨m', hm', hcase⟩
  · have hzero : (0 : Int64).toInt = 0 := rfl
    omega
  · have hoff := hfit.offset i hi m' hm'
    rcases hcase with rfl | rfl
    · rw [toInt_add_eight (by omega)]
      omega
    · omega

end Layout

end Spill

end Spillway
