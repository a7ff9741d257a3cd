import Spillway.Proofs.Allocator.Output

/-!
# Counts of shifts in allocated functions

A convention chooses the register that holds the counts of shifts, but a function is well formed
only if its shifts count in `rcx`. So whether an allocated function is well formed depends on shifts
by a variable alone (`Func.allocate_check_iff`): spilling neither adds nor removes them
(`Machine.shiftsByVar_of_spillAll`), and a coloring puts their counts in the register of the
convention.

The stack pointer of the instructions is `rsp` whatever the convention says, and a palette that
contains it allows an allocation to write it (`Func.allocate_not_check`).
-/

namespace Spillway

variable {c : Convention} {f g F r : Func} {i j : Instr} {v : Var}

/-- Some instruction of the function shifts by a variable. -/
def Func.ShiftsByVar (f : Func) : Prop := ∃ i ∈ f.code, ∃ v, Interference.shiftVar? i = some v

/-! ## Spilling -/

namespace Spill

theorem shiftVar?_raiseSlots (i : Instr) :
    Interference.shiftVar? i.raiseSlots = Interference.shiftVar? i := by
  cases i <;> rfl

/-- A temporary counts a shift where the spilled variable did. -/
theorem isSome_shiftVar?_rename (v t : Var) (i : Instr) :
    (Interference.shiftVar? (i.mapOperands (Operand.rename v t))).isSome =
      (Interference.shiftVar? i).isSome := by
  cases i with
  | shift op dst src =>
      cases src with
      | var w =>
          have hvar : ∃ u, Operand.rename v t (.var w) = .var u := by
            unfold Operand.rename
            split
            · exact ⟨t, rfl⟩
            · exact ⟨w, rfl⟩
          obtain ⟨u, hu⟩ := hvar
          rw [Instr.mapOperands, hu]
          rfl
      | _ => rfl
  | _ => rfl

theorem Made.shiftVar? {used : List Var} (h : Made v used i j)
    (hj : (Interference.shiftVar? j).isSome) : (Interference.shiftVar? i).isSome := by
  cases h with
  | plain _ => rwa [shiftVar?_raiseSlots] at hj
  | slot hfold => cases hfold <;> cases hj
  | work _ _ _ => rwa [isSome_shiftVar?_rename, shiftVar?_raiseSlots] at hj
  | load _ _ _ => cases hj
  | store _ _ _ => cases hj

/-- The window of a shift by a variable contains one. -/
theorem Window.exists_shiftVar? {used : List Var} {win : List Instr} (h : Window v used i win)
    (hi : (Interference.shiftVar? i).isSome) : ∃ j ∈ win, (Interference.shiftVar? j).isSome := by
  cases h with
  | plain _ => exact ⟨i, List.mem_singleton_self i, hi⟩
  | slot hslot =>
      -- shifts do not work on slots
      cases Instr.folded_of_inSlot? hslot <;> cases hi
  | @temp t _ _ _ _ =>
      refine ⟨_, Instr.mem_throughTemp.mpr (.inr (.inl rfl)), ?_⟩
      rwa [isSome_shiftVar?_rename]

theorem Layout.shiftsByVar {ws : List (List Instr)} (h : Layout f v ws g) :
    g.ShiftsByVar ↔ f.ShiftsByVar := by
  simp only [Func.ShiftsByVar, ← Option.isSome_iff_exists]
  constructor
  · rintro ⟨j, hj, hshift⟩
    obtain ⟨i, hi, hmade⟩ := h.made hj
    exact ⟨i, hi, hmade.shiftVar? hshift⟩
  · rintro ⟨i, hi, hshift⟩
    obtain ⟨n, hn⟩ := List.getElem?_of_mem hi
    obtain ⟨win, hwin, hwindow⟩ := h.window hn
    rw [← shiftVar?_raiseSlots] at hshift
    obtain ⟨j, hj, hshift⟩ := hwindow.exists_shiftVar? hshift
    refine ⟨j, ?_, hshift⟩
    rw [h.code]
    exact List.mem_flatten_of_mem (List.mem_of_getElem? hwin) hj

end Spill

theorem Machine.shiftsByVar_of_spillAll {vs : List Var} (h : spillAll f vs = .ok F) :
    F.ShiftsByVar ↔ f.ShiftsByVar := by
  induction vs generalizing f with
  | nil =>
      cases h
      rfl
  | cons v vs ih =>
      obtain ⟨f', temps, hspill, hrest⟩ := spillAll_cons.mp h
      obtain ⟨_, _, _, ws, hlayout⟩ := Func.spill_eq_ok hspill
      exact (ih hrest).trans hlayout.shiftsByVar

/-! ## Coloring -/

/-- A well-formed function in which a variable counted a shift has its shift counts in `rcx`. -/
theorem Machine.Examined.shiftCount_of_check {live : Liveness} {g : Interference} {a : Assignment}
    (h : Examined c F live g) (hc : c.Accepted) (hrsp : Reg.rsp ∉ c.palette)
    (hcolor : Coloring.color c g.graph = .ok (.colored a)) (hshift : F.ShiftsByVar)
    (hcheck : (F.rename (Operand.assign a)).check = .ok ()) : c.shiftCount = Reg.rcx := by
  obtain ⟨i, hi, v, hv⟩ := hshift
  have hcount := (h.proper hc hcolor).assign_shiftVar h.solution h.build hrsp hi hv
  obtain ⟨op, dst, rfl⟩ := Interference.shiftVar?_eq_some.mp hv
  rw [Func.check_eq_ok_iff] at hcheck
  have hwf := (hcheck _ (List.mem_map_of_mem hi)).2.2
  rw [hcount] at hwf
  exact hwf

namespace Func

/-- An allocation under a convention that does not hand out `rsp` returns a well-formed function
exactly if the convention counts shifts in `rcx` or no variable counts a shift. -/
theorem allocate_check_iff (hrsp : Reg.rsp ∉ c.palette) (h : f.allocate c = .ok r) :
    r.check = .ok () ↔ (f.ShiftsByVar → c.shiftCount = Reg.rcx) := by
  obtain ⟨p, F, live, g, _, hc, hf, hF, hex, hcolor, rfl⟩ := Machine.allocate_eq_ok h
  have hacc := Convention.check_eq_ok_iff.mp hc
  rw [← Machine.shiftsByVar_of_spillAll hF]
  constructor
  · exact fun hcheck hshift => hex.shiftCount_of_check hacc hrsp hcolor hshift hcheck
  · intro hshift
    exact hex.check_assign hacc hrsp (fun i hi v hv => hshift ⟨i, hi, v, hv⟩) hcolor
      ((Machine.spilledTo_of_spillAll hF).check hf)

theorem allocate_check_iff_pressed : Reg.rsp ∉ Convention.tight.palette ∧ pressed.ShiftsByVar ∧
    ∃ r, pressed.allocate .tight = .ok r ∧ r.check = .ok () := by
  have hrsp : Reg.rsp ∉ Convention.tight.palette := by decide
  have hshift : pressed.ShiftsByVar :=
    ⟨.shift .shl (.var ⟨"z"⟩) (.var ⟨"y"⟩), by decide, ⟨"y"⟩, rfl⟩
  have hok : (pressed.allocate .tight).toOption.isSome := by decide +kernel
  obtain ⟨r, hr⟩ := Option.isSome_iff_exists.mp hok
  rw [toOption_eq_some] at hr
  exact ⟨hrsp, hshift, r, hr, (allocate_check_iff hrsp hr).mpr fun _ => rfl⟩

/-- A shift of one variable by another. -/
def shifting : Func where
  name := ⟨"shifting"⟩
  args := 0
  locals := 0
  code := [
    .mov (.var ⟨"n"⟩) (.num 1), .mov (.var ⟨"x"⟩) (.num 2),
    .shift .shl (.var ⟨"x"⟩) (.var ⟨"n"⟩), .mov (.reg .rax) (.var ⟨"x"⟩), .ret]

/-- A move through a variable. -/
def moving : Func where
  name := ⟨"moving"⟩
  args := 0
  locals := 0
  code := [.mov (.var ⟨"x"⟩) (.num 2), .mov (.reg .rax) (.var ⟨"x"⟩), .ret]

end Func

/-- A convention that counts shifts in another register. -/
def Convention.countingInRax : Convention := { tight with shiftCount := .rax }

/-- A convention with another stack pointer, which hands out `rsp`. -/
def Convention.handingOutRsp : Convention :=
  { tight with palette := [.rsp, .rcx, .rax], stackPointer := .rbx }

/-- What is to be computed for an allocation that returns a malformed function. -/
theorem Func.exists_not_check
    (h : (f.allocate c).toOption.map (fun r => r.check.toOption) = some none) :
    ∃ r, f.allocate c = .ok r ∧ r.check ≠ .ok () := by
  obtain ⟨r, hr, hbad⟩ := Option.map_eq_some_iff.mp h
  refine ⟨r, toOption_eq_some.mp hr, fun hok => ?_⟩
  rw [toOption_eq_some.mpr hok] at hbad
  cases hbad

/-- An accepted convention does not make allocated functions well formed: neither if it counts
shifts in another register than `rcx` nor if it hands out `rsp`. -/
theorem Func.allocate_not_check :
    (Convention.countingInRax.check = .ok () ∧ shifting.check = .ok () ∧
      ∃ r, shifting.allocate .countingInRax = .ok r ∧ r.check ≠ .ok ()) ∧
    (Convention.handingOutRsp.check = .ok () ∧ moving.check = .ok () ∧
      ∃ r, moving.allocate .handingOutRsp = .ok r ∧ r.check ≠ .ok ()) := by
  refine ⟨⟨?_, ?_, exists_not_check (by decide +kernel)⟩,
    ⟨?_, ?_, exists_not_check (by decide +kernel)⟩⟩ <;>
    exact toOption_eq_some.mp (by decide +kernel)

end Spillway
