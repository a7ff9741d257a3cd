import Spillway.Frame.StackArg
import Spillway.Proofs.Semantics.Spilling

/-!
# Spilling and stack arguments

A stack argument is read past the slots of the function, so its offset from the stack pointer grows
with their number, while spilling itself raises the offsets of loads. Reading stack arguments as
loads therefore commutes with spilling where the two ways of growing agree. They do for arguments
that do not lie below the stack pointer, and for no others (`Func.spill_lowerStackArgs_iff`).

Lowering changes nothing that spilling asks of an instruction (`Instr.needsTemp_lowerStackArg`), so
windows are lowered instruction by instruction (`Instr.throughTemp_lowerStackArg`,
`Instr.withoutTemp_lowerStackArg`), and only the offsets are left to compare.
-/

namespace Spillway

namespace Instr

variable {v t : Var} {i : Instr} {locals : Int64}

/-! ## What spilling asks -/

theorem references_lowerStackArg : (i.lowerStackArg locals).references (.var v) = i.references (.var v) := by
  rw [Bool.eq_iff_iff, references_var, references_var, ← mem_vars, ← mem_vars, vars_lowerStackArg]

theorem inSlot?_lowerStackArg : (i.lowerStackArg locals).inSlot? v = i.inSlot? v := by
  cases i <;> rfl

theorem needsTemp_lowerStackArg : (i.lowerStackArg locals).needsTemp v = i.needsTemp v := by
  rw [needsTemp, needsTemp, references_lowerStackArg, inSlot?_lowerStackArg]

theorem needsTemp_raiseSlots : i.raiseSlots.needsTemp v = i.needsTemp v := by
  cases i <;> rfl

theorem reads_lowerStackArg : (i.lowerStackArg locals).reads v = i.reads v := by
  cases i <;> rfl

theorem writes_lowerStackArg : (i.lowerStackArg locals).writes v = i.writes v := by
  cases i <;> rfl

/-! ## Windows -/

theorem mapOperands_lowerStackArg :
    (i.lowerStackArg locals).mapOperands (Operand.rename v t) =
      (i.mapOperands (Operand.rename v t)).lowerStackArg locals := by
  cases i <;> rfl

theorem throughTemp_lowerStackArg :
    (i.lowerStackArg locals).throughTemp v t = (i.throughTemp v t).map (lowerStackArg locals) := by
  unfold throughTemp
  rw [reads_lowerStackArg, writes_lowerStackArg, mapOperands_lowerStackArg]
  split <;> split <;> rfl

theorem withoutTemp_lowerStackArg :
    (i.lowerStackArg locals).withoutTemp v = (i.withoutTemp v).map (lowerStackArg locals) := by
  unfold withoutTemp
  rw [references_lowerStackArg, inSlot?_lowerStackArg]
  split
  · cases hj : i.inSlot? v with
    | none => rfl
    | some j => cases folded_of_inSlot? hj <;> rfl
  · rfl

/-! ## Offsets -/

/-- Past one more slot the offset of a stack argument is the raised one if it is not negative. -/
theorem raised_argumentCell_iff (locals off : Int64) :
    raised .rsp (argumentCell locals off) = argumentCell (locals + 1) off ↔
      0 ≤ argumentCell locals off := by
  rw [argumentCell_succ]
  constructor
  · intro h
    refine Classical.byContradiction fun hneg => ?_
    rw [raised, if_neg fun hcase => hneg hcase.2] at h
    exact absurd (Int64.left_eq_add.mp h) (by decide)
  · intro h
    rw [raised, if_pos ⟨rfl, h⟩]

/-- Does the instruction, if it reads a stack argument, read one that is not below the stack
pointer? -/
def ArgAbove (locals : Int64) (i : Instr) : Prop :=
  ∀ dst off, i = .stackArg dst off → 0 ≤ argumentCell locals off

theorem argAbove_stackArg {dst : Operand} {off : Int64} :
    (stackArg dst off).ArgAbove locals ↔ 0 ≤ argumentCell locals off := by
  constructor
  · intro h
    exact h dst off rfl
  · rintro h _ _ ⟨⟩
    exact h

theorem raiseSlots_lowerStackArg_iff :
    (i.lowerStackArg locals).raiseSlots = i.raiseSlots.lowerStackArg (locals + 1) ↔
      i.ArgAbove locals := by
  cases i with
  | stackArg dst off =>
      rw [argAbove_stackArg, ← raised_argumentCell_iff]
      show load dst .rsp (raised .rsp (argumentCell locals off)) =
        load dst .rsp (argumentCell (locals + 1) off) ↔ _
      constructor
      · intro h
        injection h
      · intro h
        rw [h]
  | _ => simp [ArgAbove, lowerStackArg, raiseSlots]

/-- The window through a temporary tells the offset at which a stack argument is read. -/
theorem throughTemp_raiseSlots_iff :
    (i.lowerStackArg locals).raiseSlots.throughTemp v t =
        (i.raiseSlots.throughTemp v t).map (lowerStackArg (locals + 1)) ↔ i.ArgAbove locals := by
  rw [← throughTemp_lowerStackArg, ← raiseSlots_lowerStackArg_iff]
  refine ⟨fun h => ?_, fun h => congrArg _ h⟩
  cases i with
  | stackArg dst off =>
      -- nothing is read before, so the load is the first instruction of either window
      have hwork := congrArg (fun w => w[0]?) h
      injection hwork with hload
      injection hload with _ _ hoff
      exact congrArg (load dst .rsp) hoff
  | _ => rfl

/-- So does the window that is the instruction itself. -/
theorem withoutTemp_raiseSlots_iff (hneeds : i.needsTemp v = false) :
    (i.lowerStackArg locals).raiseSlots.withoutTemp v =
        (i.raiseSlots.withoutTemp v).map (lowerStackArg (locals + 1)) ↔ i.ArgAbove locals := by
  rw [← withoutTemp_lowerStackArg, ← raiseSlots_lowerStackArg_iff]
  refine ⟨fun h => ?_, fun h => congrArg _ h⟩
  cases i with
  | stackArg dst off =>
      have href : (stackArg dst off).references (.var v) = false := by
        simpa [needsTemp, inSlot?] using hneeds
      have hload : ∀ m, (load dst .rsp m).withoutTemp v = [load dst .rsp m] := by
        intro m
        have hm : (load dst .rsp m).references (.var v) = false := by
          rw [← href]
          cases dst <;> rfl
        rw [withoutTemp, hm]
        rfl
      have hsame : [load dst .rsp (raised .rsp (argumentCell locals off))] =
          [load dst .rsp (argumentCell (locals + 1) off)] := by
        rw [← hload, ← hload]
        exact h
      exact List.singleton_inj.mp hsame
  | _ => rfl

end Instr

namespace Spill

variable {v : Var} {stem : String} {used : List Var} {locals : Int64} {n : Nat} {code : List Instr}

theorem needsTemp_lowered (i : Instr) :
    (i.lowerStackArg locals).raiseSlots.needsTemp v = i.raiseSlots.needsTemp v := by
  rw [Instr.needsTemp_raiseSlots, Instr.needsTemp_lowerStackArg, Instr.needsTemp_raiseSlots]

theorem length_throughTemp_lowered (i : Instr) (t : Var) :
    ((i.lowerStackArg locals).raiseSlots.throughTemp v t).length =
      (i.raiseSlots.throughTemp v t).length := by
  have hreads : (i.lowerStackArg locals).raiseSlots.reads v = i.raiseSlots.reads v := by
    cases i <;> rfl
  have hwrites : (i.lowerStackArg locals).raiseSlots.writes v = i.raiseSlots.writes v := by
    cases i <;> rfl
  rw [Instr.length_throughTemp, Instr.length_throughTemp, hreads, hwrites]

theorem length_withoutTemp_lowered (i : Instr) :
    ((i.lowerStackArg locals).raiseSlots.withoutTemp v).length =
      (i.raiseSlots.withoutTemp v).length := by
  cases i with
  | stackArg dst off =>
      have href : (Instr.stackArg dst off |>.lowerStackArg locals).raiseSlots.references (.var v) =
          (Instr.stackArg dst off).raiseSlots.references (.var v) := by
        cases dst <;> rfl
      unfold Instr.withoutTemp
      rw [href]
      split <;> rfl
  | _ => rfl

/-- Lowered code gets the same temporaries, and windows of the same lengths. -/
theorem windows_lowerStackArg :
    (windows v stem used n (code.map (Instr.lowerStackArg locals))).2 =
        (windows v stem used n code).2 ∧
      (windows v stem used n (code.map (Instr.lowerStackArg locals))).1.map List.length =
        (windows v stem used n code).1.map List.length := by
  induction code generalizing n with
  | nil => exact ⟨rfl, rfl⟩
  | cons i code ih =>
      simp only [List.map_cons, windows, needsTemp_lowered]
      split
      · obtain ⟨htemps, hlengths⟩ := @ih (firstUnused stem used n + 1)
        exact ⟨by rw [htemps],
          by rw [List.map_cons, List.map_cons, hlengths, length_throughTemp_lowered]⟩
      · obtain ⟨htemps, hlengths⟩ := @ih n
        exact ⟨htemps,
          by rw [List.map_cons, List.map_cons, hlengths, length_withoutTemp_lowered]⟩

/-- The windows of lowered code are the lowered windows of the code exactly if no stack argument
lies below the stack pointer. -/
theorem windows_lowerStackArg_iff :
    (windows v stem used n (code.map (Instr.lowerStackArg locals))).1 =
        (windows v stem used n code).1.map (List.map (Instr.lowerStackArg (locals + 1))) ↔
      ∀ i ∈ code, i.ArgAbove locals := by
  induction code generalizing n with
  | nil => simp [windows]
  | cons i code ih =>
      simp only [List.map_cons, windows, needsTemp_lowered]
      split
      · rw [List.map_cons, List.cons.injEq, ih, Instr.throughTemp_raiseSlots_iff,
          List.forall_mem_cons]
      · rename_i hneeds
        rw [Instr.needsTemp_raiseSlots, Bool.not_eq_true] at hneeds
        rw [List.map_cons, List.cons.injEq, ih, Instr.withoutTemp_raiseSlots_iff hneeds,
          List.forall_mem_cons]

end Spill

namespace Func

variable {f : Func}

theorem isComplete_lowerStackArgs (hf : f.isComplete = true) : f.lowerStackArgs.isComplete = true := by
  rw [isComplete_iff] at hf ⊢
  intro hole
  obtain ⟨i, hi, hlower⟩ := List.mem_map.mp hole
  cases i with
  | hole => exact hf hi
  | _ => cases hlower

theorem stackArgsAbove_iff : f.StackArgsAbove ↔ ∀ i ∈ f.code, i.ArgAbove f.locals := by
  constructor
  · rintro h i hi dst off rfl
    exact h dst off hi
  · intro h dst off hi
    exact h _ hi dst off rfl

/-- Lowering has an effect on the code only. -/
theorem lowerStackArgs_eq_iff {g h : Func} (hname : h.name = g.name) (hargs : h.args = g.args)
    (hlocals : h.locals = g.locals) :
    g.lowerStackArgs = h ↔ g.code.map (Instr.lowerStackArg g.locals) = h.code := by
  cases h
  cases hname
  cases hargs
  cases hlocals
  constructor
  · intro h
    exact congrArg Func.code h
  · intro h
    cases h
    rfl

/-- A function can be spilled before or after its stack arguments are read as loads, with the same
temporaries. The functions that come out are the same exactly if no stack argument lies below the
stack pointer. -/
theorem spill_lowerStackArgs_iff (hf : f.isComplete = true) (v : Var) (stem : String) :
    ∃ g h temps, f.spill v stem = .ok (g, temps) ∧
      f.lowerStackArgs.spill v stem = .ok (h, temps) ∧
      (g.lowerStackArgs = h ↔ f.StackArgsAbove) := by
  obtain ⟨g, temps, ws, hspill, hwindows, hlayout⟩ := spill_windows hf v stem
  obtain ⟨h, temps', ws', hspill', hwindows', hlayout'⟩ :=
    spill_windows (isComplete_lowerStackArgs hf) v stem
  obtain ⟨_, hname, hargs, _⟩ := spill_eq_ok hspill
  obtain ⟨_, hname', hargs', _⟩ := spill_eq_ok hspill'
  rw [vars_lowerStackArgs] at hwindows'
  have hiff : (Spill.windows v stem f.vars 0 f.lowerStackArgs.code).1 =
      (Spill.windows v stem f.vars 0 f.code).1.map (List.map (Instr.lowerStackArg (f.locals + 1))) ↔
        ∀ i ∈ f.code, i.ArgAbove f.locals := Spill.windows_lowerStackArg_iff
  have hsame : (Spill.windows v stem f.vars 0 f.lowerStackArgs.code).2 =
        (Spill.windows v stem f.vars 0 f.code).2 ∧
      (Spill.windows v stem f.vars 0 f.lowerStackArgs.code).1.map List.length =
        (Spill.windows v stem f.vars 0 f.code).1.map List.length := Spill.windows_lowerStackArg
  rw [hwindows, hwindows'] at hiff hsame
  obtain ⟨rfl, hlengths⟩ := hsame
  refine ⟨g, h, temps', hspill, hspill', ?_⟩
  rw [lowerStackArgs_eq_iff (hname'.trans hname.symm) (hargs'.trans hargs.symm)
    (hlayout'.locals.trans hlayout.locals.symm), hlayout.code, hlayout'.code, hlayout.locals,
    List.map_flatten, stackArgsAbove_iff, ← hiff, eq_comm, List.eq_iff_flatten_eq]
  -- windows of equal lengths are the same if they are in one piece
  refine ⟨fun hcode => ⟨hcode, ?_⟩, fun hcode => hcode.1⟩
  rw [hlengths, List.map_map]
  exact List.map_congr_left fun w _ => (List.length_map _).symm

/-- A function that reads two stack arguments, one of them into the variable that is spilled. -/
def borrowing : Func where
  name := ⟨"borrowing"⟩
  args := 8
  locals := 1
  code := [
    .stackArg (.var ⟨"x"⟩) 0, .stackArg (.var ⟨"y"⟩) 8, .store .rsp 0 (.var ⟨"y"⟩),
    .arith .mul (.var ⟨"x"⟩) (.var ⟨"y"⟩), .mov (.reg .rax) (.var ⟨"x"⟩), .ret]

theorem spill_lowerStackArgs_iff_borrowing : borrowing.isComplete = true ∧
    ∃ g, borrowing.spill ⟨"x"⟩ "x" = .ok (g, [⟨"x0"⟩, ⟨"x1"⟩]) ∧
      borrowing.lowerStackArgs.spill ⟨"x"⟩ "x" = .ok (g.lowerStackArgs, [⟨"x0"⟩, ⟨"x1"⟩]) := by
  have hf : borrowing.isComplete = true := by decide
  have habove : borrowing.StackArgsAbove := by
    intro dst off h
    simp only [borrowing, List.mem_cons, Instr.stackArg.injEq, reduceCtorEq, List.not_mem_nil,
      or_false] at h
    rcases h with ⟨_, rfl⟩ | ⟨_, rfl⟩
    · decide
    · decide
  obtain ⟨g, h, temps, hspill, hspill', hiff⟩ := spill_lowerStackArgs_iff hf ⟨"x"⟩ "x"
  obtain rfl := hiff.mpr habove
  have htemps : (Spill.windows ⟨"x"⟩ "x" borrowing.vars 0 borrowing.code).2 =
      [⟨"x0"⟩, ⟨"x1"⟩] := by
    decide +kernel
  obtain ⟨_, temps', ws, hws, hwindows, _⟩ := spill_windows hf ⟨"x"⟩ "x"
  cases hspill.symm.trans hws
  rw [hwindows] at htemps
  obtain rfl : temps = [⟨"x0"⟩, ⟨"x1"⟩] := htemps
  exact ⟨hf, g, hspill, hspill'⟩

end Func

end Spillway
