import Spillway.Proofs.Code.Vars
import Spillway.Proofs.Code.WellFormed
import Spillway.Proofs.Liveness.Paths

/-!
# What the check of a function promises

Passes that run on accepted functions take for granted that operands are there, that registers
exist, that variables and labels have names, and that the stack pointer is never written. The kinds
of operands grow out of one another, so most of this is said once, about sources
(`Operand.Source.named`).

All of it holds of accepted functions but for one place: the count of a shift may be the variable
without a name (`Func.check_operands`, `Func.check_unnamedCount`).
-/

namespace Spillway

namespace Operand

/-- A variable or a label has a name. -/
def Named : Operand → Prop
  | var v => v.name ≠ ""
  | label l => l.name ≠ ""
  | _ => True

variable {x : Operand}

theorem Writable.source (h : x.Writable) : x.Source := .inr (.inr (.inr h))

theorem Base.source (h : x.Base) : x.Source := .inr (.inr h)

theorem Value.source (h : x.Value) : x.Source := .inr h

theorem Source.named (h : x.Source) : x.Named := by
  rcases h with ⟨l, rfl, hl⟩ | ⟨n, rfl⟩ | rfl | h
  · exact hl
  · trivial
  · trivial
  · cases x with
    | var v => exact h
    | reg r => trivial
    | num | label | runtime | hole => cases h

theorem Callee.named (h : x.Callee) : x.Named := by
  rcases h with ⟨name, rfl, _⟩ | ⟨l, rfl, hl⟩ | h
  · trivial
  · exact hl
  · exact h.source.named

/-- A shift count has a name unless it is the variable without one. -/
theorem ShiftCount.named (h : x.ShiftCount) (hx : x ≠ .var ⟨""⟩) : x.Named := by
  cases x with
  | var v =>
      intro hname
      apply hx
      show Operand.var ⟨v.name⟩ = .var ⟨""⟩
      rw [hname]
  | num | reg => trivial
  | label | runtime | hole => cases h

theorem not_writable_rsp : ¬ Writable .rsp := fun h => h.1 rfl

end Operand

namespace Instr

variable {i : Instr} {x : Operand} {l : Label}

/-- The instruction shifts by the variable that has no name. -/
def ShiftsByUnnamed (i : Instr) : Prop := ∃ op dst, i = .shift op dst (.var ⟨""⟩)

namespace WellFormed

theorem named (h : i.WellFormed) (hcount : ¬ i.ShiftsByUnnamed) : ∀ x ∈ i.slots, x.Named := by
  cases i with
  | mov dst s => simpa [slots] using ⟨h.1.source.named, h.2.named⟩
  | load dst base off => simpa [slots] using ⟨h.1.source.named, h.2.source.named⟩
  | stackArg dst off => simpa [slots] using (Operand.Writable.source h).named
  | store base off s => simpa [slots] using ⟨h.1.source.named, h.2.named⟩
  | cmp dst c l r =>
      simpa [slots] using ⟨h.2.1.source.named, h.2.2.1.source.named, h.2.2.2.source.named⟩
  | arith op dst s => simpa [slots] using ⟨h.2.1.source.named, h.2.2.source.named⟩
  | arithLoad op dst base off => simpa [slots] using ⟨h.2.1.source.named, h.2.2.source.named⟩
  | memArith op base off s => simpa [slots] using ⟨h.2.1.source.named, h.2.2.source.named⟩
  | shift op dst s =>
      have hs : s ≠ .var ⟨""⟩ := fun hs => hcount ⟨op, dst, hs ▸ rfl⟩
      simpa [slots] using ⟨h.2.1.source.named, h.2.2.named hs⟩
  | lea dst base index scale =>
      simpa [slots] using ⟨h.1.source.named, h.2.1.source.named, h.2.2.1.source.named⟩
  | inc dst => simpa [slots] using (Operand.Writable.source h).named
  | dec dst => simpa [slots] using (Operand.Writable.source h).named
  | cjump c l r yes no => simpa [slots] using ⟨h.2.1.source.named, h.2.2.1.source.named⟩
  | call callee args => simpa [slots] using h.1.named
  | goto | label | ret | hole => simp [slots]

theorem writable_of_dest? (h : i.WellFormed) (hx : i.dest? = some x) : x.Writable := by
  cases i with
  | mov | load | lea => cases hx; exact h.1
  | cmp | arith | arithLoad | shift => cases hx; exact h.2.1
  | stackArg | inc | dec => cases hx; exact h
  | store | memArith | cjump | goto | label | ret | call | hole => cases hx

theorem name_of_target (h : i.WellFormed) (hl : l ∈ i.targets) : l.name ≠ "" := by
  cases i with
  | cjump c a b yes no =>
      rcases List.mem_cons.mp hl with rfl | hl
      · exact h.2.2.2.1
      · rw [List.mem_singleton.mp hl]
        exact h.2.2.2.2
  | goto target =>
      rw [List.mem_singleton.mp hl]
      exact h
  | _ => cases hl

theorem name_of_label? (h : i.WellFormed) (hl : i.label? = some l) : l.name ≠ "" := by
  cases i with
  | label l' => cases hl; exact h
  | _ => cases hl

/-- Labels have names wherever they stand; a shift has none. -/
theorem name_of_hasLabel (h : i.WellFormed) (hl : i.HasLabel l) : l.name ≠ "" := by
  rcases hl with hl | hl | hl
  · refine h.named ?_ (.label l) hl
    rintro ⟨op, dst, rfl⟩
    rcases List.mem_cons.mp hl with rfl | hl
    · exact h.2.1
    · cases List.mem_singleton.mp hl
  · exact h.name_of_target hl
  · exact h.name_of_label? hl

end WellFormed

end Instr

namespace Func

/-- In an accepted function every operand is there, registers are machine registers, labels have
names wherever they stand, and no instruction writes the stack pointer. Variables have names too,
except that a shift may count by the variable without one. -/
theorem check_operands {f : Func} (h : f.check = .ok ()) {i : Instr} (hi : i ∈ f.code) :
    (∀ x ∈ i.slots, x.Known) ∧ (∀ l, i.HasLabel l → l.name ≠ "") ∧ i.dest? ≠ some .rsp ∧
      (.var ⟨""⟩ ∈ i.slots ↔ i.ShiftsByUnnamed) := by
  have hwf : i.WellFormed := check_eq_ok_iff.mp h i hi
  refine ⟨hwf.known, fun l hl => hwf.name_of_hasLabel hl, ?_, ?_, ?_⟩
  · intro hdest
    exact Operand.not_writable_rsp (hwf.writable_of_dest? hdest)
  · intro hslot
    refine Classical.byContradiction fun hcount => ?_
    exact hwf.named hcount _ hslot rfl
  · rintro ⟨op, dst, rfl⟩
    exact List.mem_cons_of_mem _ (List.mem_singleton.mpr rfl)

/-- Jumps, a call and a shift by the variable without a name. -/
def unnamedCount : Func where
  name := ⟨"counts"⟩
  args := 1
  locals := 0
  code := [
    .mov (.var ⟨"x"⟩) (.label ⟨"out"⟩), .shift .shl (.var ⟨"x"⟩) (.var ⟨""⟩),
    .cjump .lt (.var ⟨"x"⟩) (.reg .rdi) ⟨"out"⟩ ⟨"out"⟩, .label ⟨"out"⟩,
    .call (.runtime "print") 1, .ret]

theorem check_operands_unnamedCount : unnamedCount.check = .ok () ∧
    .cjump .lt (.var ⟨"x"⟩) (.reg .rdi) ⟨"out"⟩ ⟨"out"⟩ ∈ unnamedCount.code ∧
    (Operand.reg .rdi).Known ∧ (⟨"out"⟩ : Label).name ≠ "" ∧
    .var ⟨""⟩ ∉ (Instr.cjump .lt (.var ⟨"x"⟩) (.reg .rdi) ⟨"out"⟩ ⟨"out"⟩).slots := by
  have hcheck : unnamedCount.check = .ok () := toOption_eq_some.mp (by decide)
  have hjump : .cjump .lt (.var ⟨"x"⟩) (.reg .rdi) ⟨"out"⟩ ⟨"out"⟩ ∈ unnamedCount.code := by decide
  obtain ⟨hknown, hlabel, _, hcount⟩ := check_operands hcheck hjump
  refine ⟨hcheck, hjump, hknown _ (by decide), hlabel _ (.inr (.inl (by decide))), ?_⟩
  intro hslot
  obtain ⟨op, dst, hshift⟩ := hcount.mp hslot
  cases hshift

/-- A function is accepted although one of its instructions works on a variable without a name. -/
theorem check_unnamedCount : ∃ f : Func, f.check = .ok () ∧
    ∃ i ∈ f.code, ∃ v : Var, .var v ∈ i.slots ∧ v.name = "" := by
  refine ⟨unnamedCount, toOption_eq_some.mp (by decide), ?_⟩
  exact ⟨.shift .shl (.var ⟨"x"⟩) (.var ⟨""⟩), by decide, ⟨""⟩, by decide, rfl⟩

end Func

end Spillway
