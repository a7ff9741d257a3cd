import Spillway.Liveness.Effect
import Spillway.Proofs.Code.Vars

/-!
# Ids of nodes

An id stands for one operand (`Nodes.id?_inj`), and a set of ids for the operands that have them
(`Nodes.mem_setOf`). The nodes of a function whose convention lists no register twice are the
registers of the palette, which keep their places, and all of its variables.
-/

namespace Spillway

namespace Nodes

variable {u : Nodes} {x y : Operand} {a : Nat}

theorem id?_reg {r : Reg} (h : r ≠ Reg.rsp) : u.id? (.reg r) = u.regs.idxOf? r := by
  simp [id?, h]

theorem ne_rsp_of_id? (h : u.id? x = some a) : x ≠ .rsp := by
  rintro rfl
  simp [id?] at h

theorem operand?_of_id? (h : u.id? x = some a) : u.operand? a = some x := by
  cases x with
  | reg r =>
      simp only [id?] at h
      split at h
      · cases h
      · obtain ⟨hlt, hr, _⟩ := List.idxOf?_eq_some_iff.mp h
        rw [operand?, if_pos hlt, List.getElem?_eq_getElem hlt, hr]
        rfl
  | var v =>
      obtain ⟨i, hi, rfl⟩ := Option.map_eq_some_iff.mp h
      obtain ⟨hlt, hv, _⟩ := List.idxOf?_eq_some_iff.mp hi
      rw [operand?, if_neg (by omega), Nat.add_sub_cancel_left, List.getElem?_eq_getElem hlt, hv]
      rfl
  | num | label | runtime | hole => cases h

/-- No two operands have the same id. -/
theorem id?_inj (hx : u.id? x = some a) (hy : u.id? y = some a) : x = y := by
  have h := operand?_of_id? hx
  rw [operand?_of_id? hy] at h
  exact (Option.some.inj h).symm

theorem id?_lt (h : u.id? x = some a) : a < u.size := by
  have hop := operand?_of_id? h
  rw [operand?_eq] at hop
  have hlt := (List.getElem?_eq_some_iff.mp hop).1
  simpa [operands, size] using hlt

theorem id?_var_of_mem {v : Var} (h : v ∈ u.vars) : ∃ a, u.id? (.var v) = some a := by
  cases hi : u.vars.idxOf? v with
  | none => exact absurd h (List.idxOf?_eq_none_iff.mp hi)
  | some i => exact ⟨u.regs.length + i, by rw [id?, hi]; rfl⟩

theorem id?_reg_of_mem {r : Reg} (hr : r ≠ Reg.rsp) (h : r ∈ u.regs) :
    ∃ a, u.id? (.reg r) = some a := by
  rw [id?_reg hr]
  cases hi : u.regs.idxOf? r with
  | none => exact absurd h (List.idxOf?_eq_none_iff.mp hi)
  | some i => exact ⟨i, rfl⟩

theorem mem_vars_of_id? {v : Var} (h : u.id? (.var v) = some a) : v ∈ u.vars := by
  obtain ⟨i, hi, _⟩ := Option.map_eq_some_iff.mp h
  refine Classical.byContradiction fun hnot => ?_
  rw [List.idxOf?_eq_none_iff.mpr hnot] at hi
  cases hi

theorem var?_eq_some {v : Var} (h : u.var? a = some v) :
    u.regs.length ≤ a ∧ v ∈ u.vars ∧ a < u.size := by
  unfold var? at h
  split at h
  · cases h
  · rename_i hge
    have hlt := (List.getElem?_eq_some_iff.mp h).1
    refine ⟨Nat.le_of_not_lt hge, List.mem_of_getElem? h, ?_⟩
    unfold size
    omega

theorem operand?_eq_var {v : Var} : u.operand? a = some (.var v) ↔ u.var? a = some v := by
  unfold operand? var?
  split <;> simp

/-- The ids of registers are the lowest ones. -/
theorem lt_length_regs_iff : a < u.regs.length ↔ ∃ r, u.operand? a = some (.reg r) := by
  unfold operand?
  constructor
  · intro hlt
    rw [if_pos hlt, List.getElem?_eq_getElem hlt]
    exact ⟨_, rfl⟩
  · rintro ⟨r, h⟩
    refine Classical.byContradiction fun hlt => ?_
    rw [if_neg hlt] at h
    obtain ⟨v, _, hv⟩ := Option.map_eq_some_iff.mp h
    cases hv

theorem id?_of_var? {v : Var} (hvars : u.vars.Nodup) (h : u.var? a = some v) :
    u.id? (.var v) = some a := by
  obtain ⟨hge, _, _⟩ := var?_eq_some h
  unfold var? at h
  rw [if_neg (Nat.not_lt_of_le hge)] at h
  obtain ⟨hlt, hv⟩ := List.getElem?_eq_some_iff.mp h
  have hidx : u.vars.idxOf? v = some (a - u.regs.length) :=
    List.idxOf?_eq_some_iff.mpr ⟨hlt, hv, fun j hj he =>
      Nat.ne_of_lt hj ((List.getElem_inj hvars).mp (he.trans hv.symm))⟩
  rw [id?, hidx]
  exact congrArg some (Nat.add_sub_cancel' hge)

/-- Where no node is listed twice and none is the stack pointer, every node has its id. -/
theorem id?_of_operand? (hregs : u.regs.Nodup) (hrsp : Reg.rsp ∉ u.regs) (hvars : u.vars.Nodup)
    (h : u.operand? a = some x) : u.id? x = some a := by
  by_cases hlt : a < u.regs.length
  · rw [operand?, if_pos hlt] at h
    obtain ⟨r, hr, rfl⟩ := Option.map_eq_some_iff.mp h
    rw [id?_reg fun he => hrsp (he ▸ List.mem_of_getElem? hr)]
    obtain ⟨_, hget⟩ := List.getElem?_eq_some_iff.mp hr
    exact List.idxOf?_eq_some_iff.mpr ⟨hlt, hget, fun j hj he =>
      Nat.ne_of_lt hj ((List.getElem_inj hregs).mp (he.trans hget.symm))⟩
  · rw [operand?, if_neg hlt] at h
    obtain ⟨v, hv, rfl⟩ := Option.map_eq_some_iff.mp h
    exact id?_of_var? hvars (by rw [var?, if_neg hlt, hv])

/-- The set of a list of operands has the ids of its nodes. -/
theorem mem_setOf {xs : List Operand} : a ∈ u.setOf xs ↔ ∃ x ∈ xs, u.id? x = some a := by
  rw [setOf, BitSet.mem_ofList, List.mem_filterMap]

/-- The set of a list of operands has the id of an operand if the operand is listed. -/
theorem mem_setOf_of_id? {xs : List Operand} (hx : u.id? x = some a) :
    a ∈ u.setOf xs ↔ x ∈ xs := by
  rw [mem_setOf]
  constructor
  · rintro ⟨y, hy, hid⟩
    rwa [id?_inj hx hid]
  · intro hmem
    exact ⟨x, hmem, hx⟩

theorem ofFunc_eq_ok {c : Convention} {f : Func} (h : ofFunc c f = .ok u) :
    f.isComplete = true ∧ u = ⟨c.palette.eraseDups, f.vars⟩ := by
  obtain ⟨g, hg, h⟩ := bind_eq_ok.mp h
  obtain ⟨hf, rfl⟩ := Func.complete_eq_ok.mp hg
  cases h
  exact ⟨hf, rfl⟩

theorem ofFunc_of_isComplete (c : Convention) {f : Func} (h : f.isComplete = true) :
    ofFunc c f = .ok ⟨c.palette.eraseDups, f.vars⟩ :=
  bind_eq_ok.mpr ⟨f, Func.complete_of_isComplete h, rfl⟩

end Nodes

end Spillway
