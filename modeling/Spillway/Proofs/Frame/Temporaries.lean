import Spillway.Proofs.Frame.Spilled

/-!
# Temporaries of a spilled function

Windows are written one after the other, and each may introduce a temporary. `Spill.Rewrites` says
this once: the windows of a code list and the temporaries that they introduce, each of which is new
to the function and to the windows that follow. From it come, by induction along the code, the
variables of the new code (`Rewrites.occurs_iff`), that a temporary stays in its window
(`Rewrites.confined`) and that labels, jumps and returns stay as they are (`Rewrites.control`).

`Func.spill_contract` puts together what spilling a variable promises.
-/

namespace Spillway

/-- The variable stands in an operand position of the code. -/
def Occurs (x : Var) (code : List Instr) : Prop := ∃ i ∈ code, .var x ∈ i.slots

theorem occurs_cons {x : Var} {i : Instr} {code : List Instr} :
    Occurs x (i :: code) ↔ .var x ∈ i.slots ∨ Occurs x code := by
  simp [Occurs]

theorem occurs_append {x : Var} {code code' : List Instr} :
    Occurs x (code ++ code') ↔ Occurs x code ∨ Occurs x code' := by
  simp [Occurs, or_and_right, exists_or]

namespace Instr

/-- Does the instruction do nothing but steer: is it a label, a jump without a condition or a
return? -/
def isControl : Instr → Bool
  | goto _ | label _ | ret => true
  | _ => false

variable {i : Instr} {x : Operand}

theorem isControl_eq_false (h : x ∈ i.slots) : i.isControl = false := by
  cases i <;> first | rfl | cases h

theorem isControl_mapOperands (ρ : Operand → Operand) (i : Instr) :
    (i.mapOperands ρ).isControl = i.isControl := by
  cases i <;> rfl

theorem filter_isControl_raiseSlots (i : Instr) :
    [i.raiseSlots].filter isControl = [i].filter isControl := by
  cases i <;> rfl

end Instr

/-- The new names of operands are their names, but for the variable. -/
theorem Operand.mem_map_rename {v t : Var} {x : Operand} {xs : List Operand} :
    x ∈ xs.map (Operand.rename v t) ↔
      (x = .var t ∧ .var v ∈ xs) ∨ (x ≠ .var v ∧ x ∈ xs) := by
  rw [List.mem_map]
  constructor
  · rintro ⟨y, hy, rfl⟩
    unfold rename
    by_cases hyv : y = .var v
    · rw [if_pos hyv]
      exact .inl ⟨rfl, hyv ▸ hy⟩
    · rw [if_neg hyv]
      exact .inr ⟨hyv, hy⟩
  · rintro (⟨rfl, hv⟩ | ⟨hne, hx⟩)
    · exact ⟨.var v, hv, if_pos rfl⟩
    · exact ⟨x, hx, if_neg hne⟩

namespace Spill

/-! ## One window -/

theorem mem_slots_folded {v x : Var} {i j : Instr} (h : Folded v i j) :
    .var x ∈ j.slots ↔ .var x ∈ i.slots ∧ x ≠ v := by
  cases h with
  | moveTo hne | moveFrom hne | updateTo _ hne | updateFrom _ hne =>
      simp only [Instr.slots, List.mem_cons, List.not_mem_nil, or_false, reduceCtorEq, false_or,
        Operand.var.injEq]
      constructor
      · rintro rfl
        exact ⟨by simp, by rintro rfl; exact hne rfl⟩
      · rintro ⟨h, hxv⟩
        simpa [hxv] using h

theorem occurs_throughTemp {v t x : Var} {i : Instr} (hv : .var v ∈ i.slots) :
    Occurs x (i.throughTemp v t) ↔ (.var x ∈ i.slots ∧ x ≠ v) ∨ x = t := by
  have hwork : .var x ∈ (i.mapOperands (Operand.rename v t)).slots ↔
      (.var x ∈ i.slots ∧ x ≠ v) ∨ x = t := by
    rw [Instr.slots_mapOperands, Operand.mem_map_rename]
    simp [hv, and_comm, or_comm]
  constructor
  · rintro ⟨j, hj, hx⟩
    rcases Instr.mem_throughTemp.mp hj with ⟨rfl, _⟩ | rfl | ⟨rfl, _⟩
    · exact .inr (by simpa [Instr.slots] using hx)
    · exact hwork.mp hx
    · exact .inr (by simpa [Instr.slots] using hx)
  · intro hx
    exact ⟨_, Instr.mem_throughTemp.mpr (.inr (.inl rfl)), hwork.mpr hx⟩

/-- `w` is the window of `i` when `v` is spilled, and `new` are the temporaries that it
introduces. -/
inductive Introduces (v : Var) (i : Instr) : List Instr → List Var → Prop
  | plain : .var v ∉ i.slots → Introduces v i [i] []
  | slot {j : Instr} : Folded v i j → Introduces v i [j] []
  | temp (t : Var) : .var v ∈ i.slots → Introduces v i (i.throughTemp v t) [t]

namespace Introduces

variable {v x : Var} {i : Instr} {w : List Instr} {new : List Var}

theorem length_le (h : Introduces v i w new) : w.length ≤ 3 := by
  cases h with
  | plain _ => exact Nat.le_add_left 1 2
  | slot _ => exact Nat.le_add_left 1 2
  | temp t _ =>
      rw [Instr.length_throughTemp]
      split <;> split <;> omega

theorem nodup (h : Introduces v i w new) : new.Nodup := by
  cases h with
  | plain _ => exact .nil
  | slot _ => exact .nil
  | temp t _ => exact List.nodup_cons.mpr ⟨List.not_mem_nil, .nil⟩

/-- Only an instruction that mentions the variable gets a temporary. -/
theorem mem_slots (h : Introduces v i w new) (hx : x ∈ new) : .var v ∈ i.slots := by
  cases h with
  | plain _ => cases hx
  | slot _ => cases hx
  | temp t hv => exact hv

/-- The variables of a window are those of its instruction without the spilled one, and the
temporary. -/
theorem occurs_iff (h : Introduces v i w new) :
    Occurs x w ↔ (.var x ∈ i.slots ∧ x ≠ v) ∨ x ∈ new := by
  cases h with
  | plain hv =>
      have hne : .var x ∈ i.slots → x ≠ v := by
        rintro hx rfl
        exact hv hx
      simpa [Occurs] using hne
  | slot hfold => simpa [Occurs] using mem_slots_folded hfold
  | temp t hv => simpa using occurs_throughTemp hv

theorem control (h : Introduces v i w new) : w.filter Instr.isControl = [i].filter Instr.isControl := by
  cases h with
  | plain _ => rfl
  | slot hfold => cases hfold <;> rfl
  | temp t hv =>
      have hi : i.isControl = false := Instr.isControl_eq_false hv
      rw [List.filter_singleton, hi]
      refine List.filter_eq_nil_iff.mpr fun j hj => ?_
      rcases Instr.mem_throughTemp.mp hj with ⟨rfl, _⟩ | rfl | ⟨rfl, _⟩
      · exact Bool.false_ne_true
      · rw [Instr.isControl_mapOperands, hi]
        exact Bool.false_ne_true
      · exact Bool.false_ne_true

end Introduces

/-! ## All windows -/

/-- `ws` are the windows of the code when `v` is spilled from a function with the variables `used`,
and `temps` are the temporaries that they introduce. -/
inductive Rewrites (v : Var) (used : List Var) :
    List Instr → List (List Instr) → List Var → Prop
  | nil : Rewrites v used [] [] []
  | cons {i : Instr} {code w : List Instr} {ws : List (List Instr)} {new temps : List Var} :
      Introduces v i.raiseSlots w new → (∀ t ∈ new, t ∉ used ∧ t ∉ temps) →
      Rewrites v used code ws temps → Rewrites v used (i :: code) (w :: ws) (new ++ temps)

theorem introduces_withoutTemp {v : Var} {i : Instr} (h : i.needsTemp v = false) :
    Introduces v i (i.withoutTemp v) [] := by
  have hw := window_withoutTemp [] h
  generalize i.withoutTemp v = w at hw
  cases hw with
  | plain hv => exact .plain hv
  | slot hj => exact .slot (Instr.folded_of_inSlot? hj)
  | temp hv hnone _ _ => simp [Instr.needsTemp, Instr.references_var.mpr hv, hnone] at h

/-- Temporaries are numbered upwards. -/
theorem exists_numbers (v : Var) (stem : String) (used : List Var) (code : List Instr) (n : Nat) :
    ∃ ns : List Nat, (windows v stem used n code).2 = ns.map (tempName stem) ∧
      ns.Pairwise (· < ·) ∧ ∀ m ∈ ns, n ≤ m := by
  induction code generalizing n with
  | nil => exact ⟨[], rfl, .nil, fun m hm => by cases hm⟩
  | cons i code ih =>
      simp only [windows]
      split
      · obtain ⟨ns, htemps, hsorted, hle⟩ := ih (firstUnused stem used n + 1)
        have hn : n ≤ firstUnused stem used n := le_firstUnused stem used n
        refine ⟨firstUnused stem used n :: ns, ?_, .cons ?_ hsorted, ?_⟩
        · rw [htemps]
          rfl
        · intro m hm
          have := hle m hm
          omega
        · intro m hm
          rcases List.mem_cons.mp hm with rfl | hm
          · exact hn
          · have := hle m hm
            omega
      · exact ih n

/-- The windows that spilling writes introduce new temporaries. -/
theorem rewrites_windows (v : Var) (stem : String) (used : List Var) (code : List Instr) (n : Nat) :
    Rewrites v used code (windows v stem used n code).1 (windows v stem used n code).2 := by
  induction code generalizing n with
  | nil => exact .nil
  | cons i code ih =>
      simp only [windows]
      split
      · rename_i hneeds
        simp only [Instr.needsTemp, Bool.and_eq_true] at hneeds
        refine .cons (.temp _ (Instr.references_var.mp hneeds.1)) ?_ (ih _)
        intro t ht
        rw [List.mem_singleton.mp ht]
        refine ⟨firstUnused_not_mem stem used n, fun hlater => ?_⟩
        -- later temporaries have greater numbers
        obtain ⟨ns, htemps, _, hle⟩ := exists_numbers v stem used code (firstUnused stem used n + 1)
        rw [htemps] at hlater
        obtain ⟨m, hm, heq⟩ := List.mem_map.mp hlater
        have hnumber := tempName_inj heq
        have := hle m hm
        omega
      · rename_i hneeds
        exact .cons (introduces_withoutTemp (by simpa using hneeds)) (fun t ht => by cases ht) (ih n)

namespace Rewrites

variable {v x t : Var} {used temps : List Var} {code : List Instr} {ws : List (List Instr)}

theorem nodup (h : Rewrites v used code ws temps) : temps.Nodup := by
  induction h with
  | nil => exact .nil
  | cons hw hnew _ ih =>
      refine List.nodup_append.mpr ⟨hw.nodup, ih, ?_⟩
      rintro t ht u hu rfl
      exact (hnew t ht).2 hu

theorem not_mem_used (h : Rewrites v used code ws temps) (ht : t ∈ temps) : t ∉ used := by
  induction h with
  | nil => cases ht
  | cons _ hnew _ ih =>
      rcases List.mem_append.mp ht with ht | ht
      · exact (hnew t ht).1
      · exact ih ht

/-- There are temporaries only where the variable occurs. -/
theorem occurs_of_mem (h : Rewrites v used code ws temps) (ht : t ∈ temps) : Occurs v code := by
  induction h with
  | nil => cases ht
  | @cons i code _ _ _ _ hw _ _ ih =>
      rw [occurs_cons]
      rcases List.mem_append.mp ht with ht | ht
      · have hv := hw.mem_slots ht
        rw [Instr.slots_raiseSlots] at hv
        exact .inl hv
      · exact .inr (ih ht)

/-- The variables of the new code are those of the code without the spilled one, and the
temporaries. -/
theorem occurs_iff (h : Rewrites v used code ws temps) :
    Occurs x ws.flatten ↔ (Occurs x code ∧ x ≠ v) ∨ x ∈ temps := by
  induction h with
  | nil => simp [Occurs]
  | cons hw _ _ ih =>
      rw [List.flatten_cons, occurs_append, hw.occurs_iff, ih, occurs_cons, List.mem_append,
        Instr.slots_raiseSlots, or_and_right]
      exact or_or_or_comm

/-- A temporary stays in its window: the new code has at most three instructions in a row around
which the temporary does not occur. -/
theorem confined (h : Rewrites v used code ws temps) (hused : ∀ u, Occurs u code → u ∈ used)
    (ht : t ∈ temps) : ∃ before w after, ws.flatten = before ++ w ++ after ∧ w.length ≤ 3 ∧
      ¬ Occurs t before ∧ ¬ Occurs t after := by
  have hnot := h.not_mem_used ht
  induction h with
  | nil => cases ht
  | @cons i code w ws new temps hw hnew hrest ih =>
      have hcode : ¬ Occurs t code := fun hoccurs => hnot (hused t (occurs_cons.mpr (.inr hoccurs)))
      have hslots : .var t ∉ i.slots := fun hslot => hnot (hused t (occurs_cons.mpr (.inl hslot)))
      rcases List.mem_append.mp ht with ht | ht
      · refine ⟨[], w, ws.flatten, by simp, hw.length_le, by simp [Occurs], ?_⟩
        rw [hrest.occurs_iff]
        rintro (⟨hoccurs, _⟩ | hlater)
        · exact hcode hoccurs
        · exact (hnew t ht).2 hlater
      · obtain ⟨before, w', after, hflat, hlen, hbefore, hafter⟩ :=
          ih (fun u hu => hused u (occurs_cons.mpr (.inr hu))) ht
        refine ⟨w ++ before, w', after, by simp [hflat], hlen, ?_, hafter⟩
        rw [occurs_append, hw.occurs_iff, Instr.slots_raiseSlots]
        rintro ((⟨hslot, _⟩ | hfirst) | hoccurs)
        · exact hslots hslot
        · exact (hnew t hfirst).2 ht
        · exact hbefore hoccurs

theorem control (h : Rewrites v used code ws temps) :
    ws.flatten.filter Instr.isControl = code.filter Instr.isControl := by
  induction h with
  | nil => rfl
  | @cons i code _ _ _ _ hw _ _ ih =>
      rw [List.flatten_cons, List.filter_append, hw.control, ih, Instr.filter_isControl_raiseSlots,
        ← List.filter_append]
      rfl

end Rewrites

end Spill

/-! ## The contract -/

/-- What spilling `v` from `f` into a slot of its own makes of `f`: the function `g`, with the
temporaries `temps` that are named by `stem`. -/
structure Func.SpillsTo (f : Func) (v : Var) (stem : String) (g : Func) (temps : List Var) :
    Prop where
  name : g.name = f.name
  args : g.args = f.args
  locals : g.locals = f.locals + 1
  control : g.code.filter Instr.isControl = f.code.filter Instr.isControl
  gone : ∀ j ∈ g.code, j.references (.var v) = false
  vars : ∀ x, x ∈ g.vars ↔ (x ∈ f.vars ∧ x ≠ v) ∨ x ∈ temps
  nodup : temps.Nodup
  fresh : ∀ t ∈ temps, t ∉ f.vars
  named : ∃ ns : List Nat, temps = ns.map (Spill.tempName stem) ∧ ns.Pairwise (· < ·)
  confined : ∀ t ∈ temps, ∃ before w after, g.code = before ++ w ++ after ∧ w.length ≤ 3 ∧
    ∀ j ∈ before ++ after, j.references (.var t) = false
  check : f.check = .ok () → g.check = .ok ()

theorem references_eq_false_of_not_occurs {x : Var} {code : List Instr} (h : ¬ Occurs x code) :
    ∀ j ∈ code, j.references (.var x) = false := by
  intro j hj
  exact Instr.references_var_eq_false.mpr fun hslot => h ⟨j, hj, hslot⟩

/-- Every variable of a function without missing instructions can be spilled, under every stem. -/
theorem Func.spill_contract {f : Func} (hf : f.isComplete = true) (v : Var) (stem : String) :
    ∃ g temps, f.spill v stem = .ok (g, temps) ∧ f.SpillsTo v stem g temps := by
  obtain ⟨g, temps, ws, hspill, hwindows, hlayout⟩ := spill_windows hf v stem
  obtain ⟨_, hname, hargs, _⟩ := spill_eq_ok hspill
  have hrewrites := Spill.rewrites_windows v stem f.vars f.code 0
  obtain ⟨ns, hnumbers, hsorted, _⟩ := Spill.exists_numbers v stem f.vars f.code 0
  rw [hwindows] at hrewrites hnumbers
  have hvars : ∀ x, x ∈ g.vars ↔ (x ∈ f.vars ∧ x ≠ v) ∨ x ∈ temps := by
    intro x
    rw [mem_vars, mem_vars, hlayout.code]
    exact hrewrites.occurs_iff
  have hgone : ¬ Occurs v g.code := by
    intro hoccurs
    rcases (hvars v).mp (mem_vars.mpr hoccurs) with ⟨_, hne⟩ | htemp
    · exact hne rfl
    · exact hrewrites.not_mem_used htemp (mem_vars.mpr (hrewrites.occurs_of_mem htemp))
  refine ⟨g, temps, hspill, hname, hargs, hlayout.locals, ?_,
    references_eq_false_of_not_occurs hgone, hvars, hrewrites.nodup,
    fun t ht => hrewrites.not_mem_used ht, ⟨ns, hnumbers, hsorted⟩, ?_, hlayout.check⟩
  · rw [hlayout.code]
    exact hrewrites.control
  · intro t ht
    obtain ⟨before, w, after, hflat, hlen, hbefore, hafter⟩ :=
      hrewrites.confined (fun u hu => mem_vars.mpr hu) ht
    refine ⟨before, w, after, hlayout.code.trans hflat, hlen, ?_⟩
    apply references_eq_false_of_not_occurs
    rw [occurs_append]
    rintro (hoccurs | hoccurs)
    · exact hbefore hoccurs
    · exact hafter hoccurs

/-- A function some of whose variables are named like the temporaries of the stem `t`. -/
def Func.crowded : Func where
  name := ⟨"crowded"⟩
  args := 0
  locals := 0
  code := [
    .mov (.var ⟨"t0"⟩) (.num 1), .mov (.var ⟨"x"⟩) (.num 2), .shift .shl (.var ⟨"x"⟩) (.var ⟨"t0"⟩),
    .arith .mul (.var ⟨"x"⟩) (.var ⟨"x"⟩), .mov (.var ⟨"t2"⟩) (.var ⟨"x"⟩),
    .mov (.reg .rax) (.var ⟨"t2"⟩), .ret]

theorem Func.spill_contract_crowded : crowded.isComplete = true ∧
    ∃ g, crowded.spill ⟨"x"⟩ "t" = .ok (g, [⟨"t1"⟩, ⟨"t3"⟩]) ∧
      crowded.SpillsTo ⟨"x"⟩ "t" g [⟨"t1"⟩, ⟨"t3"⟩] := by
  have hf : crowded.isComplete = true := by decide
  obtain ⟨g, temps, hspill, hto⟩ := spill_contract hf ⟨"x"⟩ "t"
  obtain ⟨g', temps', ws, hspill', hwindows, _⟩ := spill_windows hf ⟨"x"⟩ "t"
  have htemps : (Spill.windows ⟨"x"⟩ "t" crowded.vars 0 crowded.code).2 =
      [⟨"t1"⟩, ⟨"t3"⟩] := by
    decide +kernel
  cases hspill.symm.trans hspill'
  rw [hwindows] at htemps
  obtain rfl : temps = [⟨"t1"⟩, ⟨"t3"⟩] := htemps
  exact ⟨hf, g, hspill, hto⟩

end Spillway
