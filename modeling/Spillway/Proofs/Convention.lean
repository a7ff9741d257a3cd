import Spillway.Proofs.Results
import Spillway.Convention

/-!
# Accepted conventions

The check of a convention accepts exactly the conventions whose palette lists machine registers, at
least one and none twice, without the stack pointer, and whose other roles are played by registers
of the palette (`Convention.check_eq_ok_iff`).
-/

namespace Spillway.Convention

/-- What the check of a convention asks for. -/
structure Accepted (c : Convention) : Prop where
  nonempty : c.palette ≠ []
  machine : ∀ r ∈ c.palette, r.isMachine = true
  nodup : c.palette.Nodup
  stackPointer : c.stackPointer ∉ c.palette
  shiftCount : c.shiftCount ∈ c.palette
  result : c.result ∈ c.palette
  args : ∀ r ∈ c.args, r ∈ c.palette
  callerSave : ∀ r ∈ c.callerSave, r ∈ c.palette
  calleeSave : ∀ r ∈ c.calleeSave, r ∈ c.palette

theorem checkPalette_eq_ok {seen rs : List Reg} : checkPalette seen rs = .ok () ↔
    (∀ r ∈ rs, r.isMachine = true ∧ r ∉ seen) ∧ rs.Nodup := by
  induction rs generalizing seen with
  | nil => simp [checkPalette]
  | cons r rs ih =>
      simp only [checkPalette, Bool.not_eq_true']
      split
      · simp_all
      · split
        · simp_all
        · rw [ih, List.nodup_cons]
          simp only [List.mem_cons]
          grind

theorem checkRole_eq_ok {c : Convention} {role : String} {rs : List Reg} :
    c.checkRole role rs = .ok () ↔ ∀ r ∈ rs, r ∈ c.palette := by
  unfold checkRole
  split
  · rename_i r h
    have hmem := List.mem_of_find?_eq_some h
    have hout := List.find?_some h
    simp only [decide_eq_true_eq] at hout
    simp only [reduceCtorEq, false_iff]
    exact fun hall => hout (hall r hmem)
  · rename_i h
    simpa using h

/-- The check accepts exactly these conventions. -/
theorem check_eq_ok_iff {c : Convention} : c.check = .ok () ↔ c.Accepted := by
  have hcheck : c.check = .ok () ↔ c.palette ≠ [] ∧ checkPalette [] c.palette = .ok () ∧
      c.stackPointer ∉ c.palette ∧ c.checkRole "shift count" [c.shiftCount] = .ok () ∧
      c.checkRole "return" [c.result] = .ok () ∧ c.checkRole "argument" c.args = .ok () ∧
      c.checkRole "caller-save" c.callerSave = .ok () ∧
      c.checkRole "callee-save" c.calleeSave = .ok () := by
    unfold check
    by_cases hempty : c.palette = []
    · simp [hempty, throw, throwThe, MonadExceptOf.throw, bind, Except.bind]
    · by_cases hsp : c.stackPointer ∈ c.palette
      · simp [hempty, hsp, throw, throwThe, MonadExceptOf.throw, bind_eq_ok]
      · simp [hempty, hsp, seq_eq_ok]
  rw [hcheck, checkPalette_eq_ok]
  simp only [checkRole_eq_ok, List.mem_singleton, forall_eq]
  constructor
  · rintro ⟨h1, ⟨h2, h3⟩, h4, h5, h6, h7, h8, h9⟩
    exact ⟨h1, fun r hr => (h2 r hr).1, h3, h4, h5, h6, h7, h8, h9⟩
  · rintro ⟨h1, h2, h3, h4, h5, h6, h7, h8, h9⟩
    exact ⟨h1, ⟨fun r hr => ⟨h2 r hr, List.not_mem_nil⟩, h3⟩, h4, h5, h6, h7, h8, h9⟩

/-- In a palette without duplicates the color of a register is its index. -/
theorem color?_eq_some {c : Convention} (hnodup : c.palette.Nodup) {x : Nat} {r : Reg} :
    c.color? r = some x ↔ c.palette[x]? = some r := by
  rw [color?, List.idxOf?_eq_some_iff, List.getElem?_eq_some_iff]
  constructor
  · rintro ⟨hlt, hr, _⟩
    exact ⟨hlt, hr⟩
  · rintro ⟨hlt, hr⟩
    exact ⟨hlt, hr, fun j hj he =>
      Nat.ne_of_lt hj ((List.getElem_inj hnodup).mp (he.trans hr.symm))⟩

end Spillway.Convention
