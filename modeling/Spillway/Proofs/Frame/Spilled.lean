import Spillway.Proofs.Code.WellFormed
import Spillway.Proofs.Frame.Windows

/-!
# What spilling makes of a function

Every instruction of the spilled function comes from one of the function in one of four ways
(`Spill.Made`). From these follow what spilling keeps: no instruction is missing, jumps have their
targets, instructions are well formed, and the variables are those of the function without the
spilled one, and temporaries.
-/

namespace Spillway

namespace Spill

/-- An instruction `j` in the window of `i` when `v` is spilled from a function with the variables
`used`. -/
inductive Made (v : Var) (used : List Var) (i : Instr) : Instr → Prop
  | plain : .var v ∉ i.slots → Made v used i i.raiseSlots
  | slot {j : Instr} : Folded v i j → Made v used i j
  | work {t : Var} : .var v ∈ i.slots → t ∉ used → t.name ≠ "" →
      Made v used i (i.raiseSlots.mapOperands (Operand.rename v t))
  | load {t : Var} : .var v ∈ i.slots → t ∉ used → t.name ≠ "" →
      Made v used i (.load (.var t) .rsp 0)
  | store {t : Var} : .var v ∈ i.slots → t ∉ used → t.name ≠ "" →
      Made v used i (.store .rsp 0 (.var t))

variable {v : Var} {used : List Var} {i j : Instr} {ws : List Instr} {f g : Func}

/-- Instructions that work on a slot have none themselves. -/
theorem raiseSlots_of_inSlot? (h : i.raiseSlots.inSlot? v = some j) : i.raiseSlots = i := by
  cases i <;> first | rfl | cases h

theorem Window.made (h : Window v used i.raiseSlots ws) (hj : j ∈ ws) : Made v used i j := by
  cases h with
  | plain hv =>
      rw [List.mem_singleton.mp hj]
      exact .plain (by simpa using hv)
  | slot hslot =>
      rw [List.mem_singleton.mp hj]
      have hfold := Instr.folded_of_inSlot? hslot
      rw [raiseSlots_of_inSlot? hslot] at hfold
      exact .slot hfold
  | temp hv _ ht hname =>
      rw [Instr.slots_raiseSlots] at hv
      rcases Instr.mem_throughTemp.mp hj with ⟨rfl, _⟩ | rfl | ⟨rfl, _⟩
      · exact .load hv ht hname
      · exact .work hv ht hname
      · exact .store hv ht hname

namespace Layout

variable {ws : List (List Instr)}

/-- Every instruction of the spilled function is made from one of the function. -/
theorem made (h : Layout f v ws g) (hj : j ∈ g.code) : ∃ i ∈ f.code, Made v f.vars i j := by
  rw [h.code, List.mem_flatten] at hj
  obtain ⟨win, hwin, hj⟩ := hj
  obtain ⟨n, hn⟩ := List.getElem?_of_mem hwin
  cases hi : f.code[n]? with
  | none =>
      rw [h.window_none hi] at hn
      cases hn
  | some i =>
      obtain ⟨win', hwin', hwindow⟩ := h.window hi
      rw [hn] at hwin'
      cases hwin'
      exact ⟨i, List.mem_of_getElem? hi, hwindow.made hj⟩

end Layout

end Spill

namespace Func

variable {f g : Func} {v : Var} {stem : String} {temps : List Var}

theorem isComplete_of_check (h : f.check = .ok ()) : f.isComplete = true := by
  rw [check_eq_ok_iff] at h
  exact isComplete_iff.mpr fun hhole => h _ hhole

/-- Spilling lays out windows in a function of the same name and arguments. -/
theorem spill_eq_ok (h : f.spill v stem = .ok (g, temps)) :
    f.isComplete = true ∧ g.name = f.name ∧ g.args = f.args ∧ ∃ ws, Spill.Layout f v ws g := by
  obtain ⟨f', hf, h⟩ := bind_eq_ok.mp h
  obtain ⟨hc, rfl⟩ := complete_eq_ok.mp hf
  cases h
  exact ⟨hc, rfl, rfl, _, Spill.windows_forall₂ v stem f.vars f.code 0, rfl, rfl⟩

/-- A complete function can be spilled, and the result is laid out by the windows of its code. -/
theorem spill_windows (h : f.isComplete = true) (v : Var) (stem : String) :
    ∃ g temps ws, f.spill v stem = .ok (g, temps) ∧
      Spill.windows v stem f.vars 0 f.code = (ws, temps) ∧ Spill.Layout f v ws g := by
  unfold spill
  rw [complete_of_isComplete h]
  exact ⟨_, _, _, rfl, rfl, Spill.windows_forall₂ v stem f.vars f.code 0, rfl, rfl⟩

theorem spill_isOk (h : f.isComplete = true) (v : Var) (stem : String) :
    ∃ g temps, f.spill v stem = .ok (g, temps) := by
  obtain ⟨g, temps, _, hspill, _⟩ := spill_windows h v stem
  exact ⟨g, temps, hspill⟩

end Func

namespace Spill

variable {v : Var} {used : List Var} {i j : Instr} {f g : Func} {ws : List (List Instr)}

/-! ## Completeness and labels -/

theorem Made.eq_hole (h : Made v used i .hole) : i = .hole := by
  generalize hj : Instr.hole = j at h
  cases h with
  | plain _ => cases i <;> first | rfl | cases hj
  | slot hfold => cases hfold <;> cases hj
  | work _ _ _ => cases i <;> first | rfl | cases hj
  | load _ _ _ => cases hj
  | store _ _ _ => cases hj

theorem Made.targets (h : Made v used i j) {l : Label} (hl : l ∈ j.targets) : l ∈ i.targets := by
  cases h with
  | plain _ => cases i <;> exact hl
  | slot hfold => cases hfold <;> cases hl
  | work _ _ _ => cases i <;> exact hl
  | load _ _ _ => cases hl
  | store _ _ _ => cases hl

namespace Layout

theorem isComplete (h : Layout f v ws g) (hf : f.isComplete = true) : g.isComplete = true := by
  rw [Func.isComplete_iff] at hf ⊢
  intro hole
  obtain ⟨i, hi, hmade⟩ := h.made hole
  exact hf (hmade.eq_hole ▸ hi)

/-- Spilling keeps the label definitions and their order. -/
theorem labels (h : Layout f v ws g) :
    g.code.filterMap Instr.label? = f.code.filterMap Instr.label? := by
  rw [h.code]
  exact filterMap_label_flatten h.windows

theorem resolves (h : Layout f v ws g) (hf : f.Resolves) : g.Resolves := by
  intro j hj l hl
  obtain ⟨i, hi, hmade⟩ := h.made hj
  rw [← mem_filterMap_label?, h.labels, mem_filterMap_label?]
  exact hf i hi l (hmade.targets hl)

end Layout

/-! ## Well-formed code -/

theorem replaces_rename {t : Var} (ht : t.name ≠ "") (v : Var) :
    Operand.Replaces (Operand.rename v t) := by
  constructor
  · intro x hx
    cases x with
    | var w => cases hx
    | _ => rfl
  · intro w hw
    unfold Operand.rename
    split
    · exact ht
    · exact hw

theorem shiftCount_rename (v t w : Var) : (Operand.rename v t (.var w)).ShiftCount := by
  unfold Operand.rename
  split <;> trivial

theorem wellFormed_raiseSlots (h : i.WellFormed) : i.raiseSlots.WellFormed := by
  cases i <;> exact h

theorem Made.wellFormed (h : Made v used i j) (hi : i.WellFormed) : j.WellFormed := by
  cases h with
  | plain _ => exact wellFormed_raiseSlots hi
  | slot hfold =>
      cases hfold with
      | moveTo _ => exact ⟨.inl rfl, hi.2⟩
      | moveFrom _ => exact ⟨hi.1, .inl rfl⟩
      | updateTo hop _ => exact ⟨by simpa using hop, .inl rfl, hi.2.2⟩
      | updateFrom hop _ => exact ⟨by simpa using hop, hi.2.1, .inl rfl⟩
  | @work t _ _ ht =>
      exact (wellFormed_raiseSlots hi).mapOperands (replaces_rename ht v)
        fun w _ => shiftCount_rename v t w
  | load _ _ ht => exact ⟨ht, .inl rfl⟩
  | store _ _ ht => exact ⟨.inl rfl, .inr (.inr (.inr ht))⟩

theorem Layout.check (h : Layout f v ws g) (hf : f.check = .ok ()) : g.check = .ok () := by
  rw [Func.check_eq_ok_iff] at hf ⊢
  intro j hj
  obtain ⟨i, hi, hmade⟩ := h.made hj
  exact hmade.wellFormed (hf i hi)

end Spill

end Spillway
