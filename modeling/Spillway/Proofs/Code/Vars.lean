import Spillway.Code.Complete
import Spillway.Frame.Spill
import Spillway.Frame.StackArg
import Spillway.Proofs.Results

/-!
# Variables of code

A variable is one of a function exactly if it stands in an operand position of one of its
instructions (`Func.mem_vars`), and it is listed once (`Func.nodup_vars`). The same goes for the
tests that spilling makes: `references` and `reads` look at positions. Stack arguments can be read
as loads without a change of variables (`Func.vars_lowerStackArgs`).
-/

namespace Spillway

/-- Removing later duplicates leaves none. -/
theorem nodup_eraseDups {α : Type} [BEq α] [LawfulBEq α] (xs : List α) : xs.eraseDups.Nodup := by
  induction hn : xs.length using Nat.strongRecOn generalizing xs with
  | ind n ih =>
      cases xs with
      | nil => exact .nil
      | cons x xs =>
          have hle := List.length_filter_le (fun y => !y == x) xs
          rw [List.length_cons] at hn
          rw [List.eraseDups_cons]
          exact List.nodup_cons.mpr ⟨by simp, ih _ (by omega) (xs.filter fun y => !y == x) rfl⟩

/-- A list without duplicates stays as it is. -/
theorem eraseDups_eq_self {α : Type} [BEq α] [LawfulBEq α] {xs : List α} (h : xs.Nodup) :
    xs.eraseDups = xs := by
  induction xs with
  | nil => rfl
  | cons x xs ih =>
      rw [List.nodup_cons] at h
      have hfilter : (xs.filter fun y => !y == x) = xs := by
        refine List.filter_eq_self.mpr fun y hy => ?_
        have hyx : y ≠ x := fun e => h.1 (e ▸ hy)
        simpa using hyx
      rw [List.eraseDups_cons, hfilter, ih h.2]

theorem Operand.eq_var_of_var? {x : Operand} {v : Var} (h : x.var? = some v) : x = .var v := by
  cases x with
  | var u => cases h; rfl
  | _ => cases h

namespace Instr

variable {i : Instr} {v : Var} {x : Operand}

theorem mem_operands : x ∈ i.operands ↔ x ∈ i.slots ∧ x ≠ .hole := by
  simp [operands]

theorem mem_vars : v ∈ i.vars ↔ .var v ∈ i.slots := by
  simp only [vars, List.mem_filterMap, mem_operands]
  constructor
  · rintro ⟨x, ⟨hx, _⟩, hv⟩
    cases x with
    | var u => cases hv; exact hx
    | _ => cases hv
  · intro h
    exact ⟨.var v, ⟨h, by simp⟩, rfl⟩

theorem references_var : i.references (.var v) = true ↔ .var v ∈ i.slots := by
  simp [references, mem_operands]

theorem references_var_eq_false : i.references (.var v) = false ↔ .var v ∉ i.slots := by
  rw [← references_var, Bool.not_eq_true]

theorem mapOperands_congr {ρ σ : Operand → Operand} (h : ∀ x ∈ i.slots, ρ x = σ x) :
    i.mapOperands ρ = i.mapOperands σ := by
  cases i <;> simp_all [slots, mapOperands]

@[simp] theorem slots_raiseSlots (i : Instr) : i.raiseSlots.slots = i.slots := by
  cases i <;> rfl

theorem vars_lowerStackArg (locals : Int64) (i : Instr) : (i.lowerStackArg locals).vars = i.vars := by
  cases i with
  | stackArg dst off => cases dst <;> rfl
  | _ => rfl

theorem mem_slots_of_dest? (h : i.dest? = some x) : x ∈ i.slots := by
  cases i <;> first | (cases h; simp [slots]) | cases h

end Instr

namespace Func

variable {f : Func} {v : Var}

theorem mem_vars : v ∈ f.vars ↔ ∃ i ∈ f.code, .var v ∈ i.slots := by
  simp [vars, Instr.mem_vars]

theorem nodup_vars (f : Func) : f.vars.Nodup := nodup_eraseDups _

theorem vars_lowerStackArgs (f : Func) : f.lowerStackArgs.vars = f.vars := by
  unfold vars lowerStackArgs
  rw [List.flatMap_map]
  congr 2
  funext i
  exact Instr.vars_lowerStackArg f.locals i

theorem isComplete_iff : f.isComplete = true ↔ Instr.hole ∉ f.code := by
  simp [isComplete]

theorem complete_eq_ok {g : Func} : f.complete = .ok g ↔ f.isComplete = true ∧ f = g := by
  unfold complete
  split
  · simp_all
  · simp_all

theorem complete_of_isComplete (h : f.isComplete = true) : f.complete = .ok f :=
  complete_eq_ok.mpr ⟨h, rfl⟩

end Func

end Spillway
