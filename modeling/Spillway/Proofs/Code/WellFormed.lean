import Spillway.Code.WellFormed
import Spillway.Interference.Basic
import Spillway.Proofs.Results

/-!
# Well-formed instructions

What the checks accept, as properties of operands and instructions (`Instr.check_eq_ok_iff`,
`Func.check_eq_ok_iff`). An instruction stays well formed when its variables are replaced by
operands that can be written, if its shift count stays one (`Instr.WellFormed.mapOperands`).
-/

namespace Spillway

namespace Operand

/-- A variable with a name or a machine register other than the stack pointer. -/
def Writable : Operand → Prop
  | var v => v.name ≠ ""
  | reg r => r ≠ Reg.rsp ∧ r.isMachine = true
  | _ => False

/-- A writable operand or the stack pointer. -/
def Base (x : Operand) : Prop := x = .rsp ∨ x.Writable

/-- A base or a number. -/
def Value (x : Operand) : Prop := (∃ n, x = .num n) ∨ x.Base

/-- A value or a label with a name. -/
def Source (x : Operand) : Prop := (∃ l, x = .label l ∧ l.name ≠ "") ∨ x.Value

/-- A number, a variable or the register for shift counts. -/
def ShiftCount : Operand → Prop
  | num _ | var _ => True
  | reg r => r = Reg.rcx
  | _ => False

/-- A function of the runtime, a label with a name or a writable operand. -/
def Callee (x : Operand) : Prop :=
  (∃ name, x = .runtime name ∧ name ∈ runtimeNames) ∨ (∃ l, x = .label l ∧ l.name ≠ "") ∨ x.Writable

end Operand

namespace Check

variable {role : Role} {x : Operand}

@[simp] theorem writable_eq_ok : writable role x = .ok () ↔ x.Writable := by
  cases x with
  | var v => simp [writable, Operand.Writable]
  | reg r =>
      by_cases hr : r = Reg.rsp <;> by_cases hm : r.isMachine = true <;>
        simp [writable, Operand.Writable, hr, hm]
  | num | label | runtime | hole => simp [writable, Operand.Writable]

@[simp] theorem base_eq_ok : base role x = .ok () ↔ x.Base := by
  unfold base Operand.Base
  by_cases hx : x = .rsp <;> simp [hx]

@[simp] theorem label_eq_ok {l : Label} : label l = .ok () ↔ l.name ≠ "" := by
  simp [label]

@[simp] theorem value_eq_ok : value role x = .ok () ↔ x.Value := by
  cases x <;> simp [value, Operand.Value]

@[simp] theorem source_eq_ok : source role x = .ok () ↔ x.Source := by
  cases x <;> simp [source, Operand.Source, Operand.Value, Operand.Base, Operand.Writable]

@[simp] theorem shiftCount_eq_ok : shiftCount x = .ok () ↔ x.ShiftCount := by
  cases x <;> simp [shiftCount, Operand.ShiftCount]

@[simp] theorem callee_eq_ok : callee x = .ok () ↔ x.Callee := by
  cases x <;> simp [callee, Operand.Callee, Operand.Writable]

@[simp] theorem cond_eq_ok {c : Cond} : cond c = .ok () ↔ ∀ s, c ≠ .unknown s := by
  cases c <;> simp [cond]

@[simp] theorem op_eq_ok {allowed : List Op} {o : Op} : op allowed o = .ok () ↔ o ∈ allowed := by
  simp [op]

@[simp] theorem scale_eq_ok {n : Int64} : scale n = .ok () ↔ n ∈ [0, 2, 4, 8] := by
  unfold scale
  split <;> simp_all

@[simp] theorem args_eq_ok {n : Int64} : args n = .ok () ↔ ¬ n < 0 := by
  unfold args
  split <;> simp_all

end Check

namespace Instr

/-- Every operand is of a kind that its place supports, and the rest exists. -/
def WellFormed : Instr → Prop
  | mov dst src => dst.Writable ∧ src.Source
  | load dst base _ => dst.Writable ∧ base.Base
  | stackArg dst _ => dst.Writable
  | store base _ src => base.Base ∧ src.Source
  | cmp dst c l r => (∀ s, c ≠ .unknown s) ∧ dst.Writable ∧ l.Value ∧ r.Value
  | arith op dst src => op ∈ [.add, .sub, .mul, .and] ∧ dst.Writable ∧ src.Value
  | arithLoad op dst base _ => op ∈ [.add, .sub] ∧ dst.Writable ∧ base.Base
  | memArith op base _ src => op ∈ [.add, .sub] ∧ base.Base ∧ src.Value
  | shift op dst src => op ∈ [.shl, .shr] ∧ dst.Writable ∧ src.ShiftCount
  | lea dst base index scale =>
    dst.Writable ∧ base.Writable ∧ index.Writable ∧ scale ∈ [0, 2, 4, 8]
  | inc dst => dst.Writable
  | dec dst => dst.Writable
  | cjump c l r yes no =>
    (∀ s, c ≠ .unknown s) ∧ l.Value ∧ r.Value ∧ yes.name ≠ "" ∧ no.name ≠ ""
  | goto l => l.name ≠ ""
  | label l => l.name ≠ ""
  | ret => True
  | call callee args => callee.Callee ∧ ¬ args < 0
  | hole => False

/-- The check accepts exactly well-formed instructions. -/
theorem check_eq_ok_iff {i : Instr} : i.check = .ok () ↔ i.WellFormed := by
  cases i <;>
    simp only [check, WellFormed, seq_eq_ok, Check.writable_eq_ok, Check.source_eq_ok,
      Check.base_eq_ok, Check.cond_eq_ok, Check.value_eq_ok, Check.op_eq_ok,
      Check.shiftCount_eq_ok, Check.scale_eq_ok, Check.label_eq_ok, Check.callee_eq_ok,
      Check.args_eq_ok, reduceCtorEq]

end Instr

theorem Func.check_eq_ok_iff {f : Func} : f.check = .ok () ↔ ∀ i ∈ f.code, i.WellFormed := by
  unfold Func.check
  rw [forM_eq_ok]
  constructor
  · intro h i hi
    obtain ⟨n, hn⟩ := List.getElem?_of_mem hi
    have hcheck := h (i, n) (List.mem_zipIdx_iff_getElem?.mpr hn)
    exact Instr.check_eq_ok_iff.mp (mapError_eq_ok.mp hcheck)
  · rintro h ⟨i, n⟩ hin
    have hi := List.mem_of_getElem? (List.mem_zipIdx_iff_getElem?.mp hin)
    exact mapError_eq_ok.mpr (Instr.check_eq_ok_iff.mpr (h i hi))

/-! ## Operands that exist -/

namespace Operand

/-- The operand is there and exists on the machine or in the runtime. -/
def Known : Operand → Prop
  | reg r => r.isMachine = true
  | runtime name => name ∈ runtimeNames
  | hole => False
  | _ => True

variable {x : Operand}

theorem Writable.known (h : x.Writable) : x.Known := by
  cases x with
  | reg r => exact h.2
  | var v => trivial
  | num | label | runtime | hole => cases h

theorem Base.known (h : x.Base) : x.Known := by
  rcases h with rfl | h
  · exact (by decide : Reg.rsp.isMachine = true)
  · exact h.known

theorem Value.known (h : x.Value) : x.Known := by
  rcases h with ⟨n, rfl⟩ | h
  · trivial
  · exact h.known

theorem Source.known (h : x.Source) : x.Known := by
  rcases h with ⟨l, rfl, _⟩ | h
  · trivial
  · exact h.known

theorem Callee.known (h : x.Callee) : x.Known := by
  rcases h with ⟨name, rfl, hname⟩ | ⟨l, rfl, _⟩ | h
  · exact hname
  · trivial
  · exact h.known

theorem ShiftCount.known (h : x.ShiftCount) : x.Known := by
  cases x with
  | reg r =>
      have hr : r = Reg.rcx := h
      exact hr ▸ (by decide : Reg.rcx.isMachine = true)
  | var | num => trivial
  | label | runtime | hole => cases h

end Operand

theorem Instr.WellFormed.known {i : Instr} (h : i.WellFormed) : ∀ x ∈ i.slots, x.Known := by
  cases i with
  | mov dst s => simpa [slots] using ⟨h.1.known, h.2.known⟩
  | load dst base off => simpa [slots] using ⟨h.1.known, h.2.known⟩
  | stackArg dst off => simpa [slots] using Operand.Writable.known h
  | store base off s => simpa [slots] using ⟨h.1.known, h.2.known⟩
  | cmp dst c l r => simpa [slots] using ⟨h.2.1.known, h.2.2.1.known, h.2.2.2.known⟩
  | arith op dst s => simpa [slots] using ⟨h.2.1.known, h.2.2.known⟩
  | arithLoad op dst base off => simpa [slots] using ⟨h.2.1.known, h.2.2.known⟩
  | memArith op base off s => simpa [slots] using ⟨h.2.1.known, h.2.2.known⟩
  | shift op dst s => simpa [slots] using ⟨h.2.1.known, h.2.2.known⟩
  | lea dst base index scale => simpa [slots] using ⟨h.1.known, h.2.1.known, h.2.2.1.known⟩
  | inc dst => simpa [slots] using Operand.Writable.known h
  | dec dst => simpa [slots] using Operand.Writable.known h
  | cjump c l r yes no => simpa [slots] using ⟨h.2.1.known, h.2.2.1.known⟩
  | call callee args => simpa [slots] using h.1.known
  | goto | label | ret | hole => simp [slots]

/-! ## Replacing variables -/

/-- A replacement of variables by operands that can be written. -/
structure Operand.Replaces (ρ : Operand → Operand) : Prop where
  fixes : ∀ x : Operand, x.var? = none → ρ x = x
  writable : ∀ v : Var, v.name ≠ "" → (ρ (.var v)).Writable

namespace Operand.Replaces

variable {ρ : Operand → Operand} {x : Operand}

theorem map_writable (hρ : Replaces ρ) (h : x.Writable) : (ρ x).Writable := by
  cases x with
  | var v => exact hρ.writable v h
  | reg r => rw [hρ.fixes _ rfl]; exact h
  | num | label | runtime | hole => cases h

theorem map_base (hρ : Replaces ρ) (h : x.Base) : (ρ x).Base := by
  rcases h with rfl | h
  · exact .inl (hρ.fixes _ rfl)
  · exact .inr (hρ.map_writable h)

theorem map_value (hρ : Replaces ρ) (h : x.Value) : (ρ x).Value := by
  rcases h with ⟨n, rfl⟩ | h
  · exact .inl ⟨n, hρ.fixes _ rfl⟩
  · exact .inr (hρ.map_base h)

theorem map_source (hρ : Replaces ρ) (h : x.Source) : (ρ x).Source := by
  rcases h with ⟨l, rfl, hl⟩ | h
  · exact .inl ⟨l, hρ.fixes _ rfl, hl⟩
  · exact .inr (hρ.map_value h)

theorem map_callee (hρ : Replaces ρ) (h : x.Callee) : (ρ x).Callee := by
  rcases h with ⟨name, rfl, hname⟩ | ⟨l, rfl, hl⟩ | h
  · exact .inl ⟨name, hρ.fixes _ rfl, hname⟩
  · exact .inr (.inl ⟨l, hρ.fixes _ rfl, hl⟩)
  · exact .inr (.inr (hρ.map_writable h))

theorem map_shiftCount (hρ : Replaces ρ) (h : x.ShiftCount)
    (hvar : ∀ v, x = .var v → (ρ x).ShiftCount) : (ρ x).ShiftCount := by
  cases x with
  | var v => exact hvar v rfl
  | num | reg | label | runtime | hole => rw [hρ.fixes _ rfl]; exact h

end Operand.Replaces

/-- Replacing variables keeps an instruction well formed, if its shift count stays one. -/
theorem Instr.WellFormed.mapOperands {ρ : Operand → Operand} (hρ : Operand.Replaces ρ) {i : Instr}
    (hshift : ∀ v, Interference.shiftVar? i = some v → (ρ (.var v)).ShiftCount)
    (h : i.WellFormed) : (i.mapOperands ρ).WellFormed := by
  cases i with
  | mov dst src => exact ⟨hρ.map_writable h.1, hρ.map_source h.2⟩
  | load dst base off => exact ⟨hρ.map_writable h.1, hρ.map_base h.2⟩
  | stackArg dst off => exact hρ.map_writable h
  | store base off src => exact ⟨hρ.map_base h.1, hρ.map_source h.2⟩
  | cmp dst c l r => exact ⟨h.1, hρ.map_writable h.2.1, hρ.map_value h.2.2.1, hρ.map_value h.2.2.2⟩
  | arith op dst src => exact ⟨h.1, hρ.map_writable h.2.1, hρ.map_value h.2.2⟩
  | arithLoad op dst base off => exact ⟨h.1, hρ.map_writable h.2.1, hρ.map_base h.2.2⟩
  | memArith op base off src => exact ⟨h.1, hρ.map_base h.2.1, hρ.map_value h.2.2⟩
  | shift op dst src =>
      refine ⟨h.1, hρ.map_writable h.2.1, hρ.map_shiftCount h.2.2 ?_⟩
      rintro v rfl
      exact hshift v rfl
  | lea dst base index scale =>
      exact ⟨hρ.map_writable h.1, hρ.map_writable h.2.1, hρ.map_writable h.2.2.1, h.2.2.2⟩
  | inc dst => exact hρ.map_writable h
  | dec dst => exact hρ.map_writable h
  | cjump c l r yes no => exact ⟨h.1, hρ.map_value h.2.1, hρ.map_value h.2.2.1, h.2.2.2⟩
  | call callee args => exact ⟨hρ.map_callee h.1, h.2⟩
  | goto | label | ret | hole => exact h

end Spillway
