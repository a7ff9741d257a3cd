import Spillway.Liveness.Effect
import Spillway.Liveness.Flow
import Spillway.Proofs.Results

/-!
# Paths and what is live on them

Which places may come after an instruction (`Func.Next`), and which operands are live before one:
those that some path from there uses before it defines them (`Live`). Neither mentions a table.
Resolving the control flow finds exactly the places that come next inside the function
(`mem_successors`), and succeeds exactly if every jump has a target (`resolve_eq_ok_iff`).
-/

namespace Spillway

namespace Instr

/-- Does an execution that passes the instruction go on with the one after it? -/
def fallsThrough : Instr → Bool
  | cjump .. | goto _ | ret => false
  | _ => true

/-- The labels to which an instruction may jump. -/
def targets : Instr → List Label
  | cjump _ _ _ yes no => [yes, no]
  | goto l => [l]
  | _ => []

/-- The label stands in the instruction, as an operand, as a target or as the place it defines. -/
def HasLabel (i : Instr) (l : Label) : Prop :=
  .label l ∈ i.slots ∨ l ∈ i.targets ∨ i.label? = some l

end Instr

/-- The label names the function or stands in its code. -/
def Func.HasLabel (f : Func) (l : Label) : Prop := f.name = l ∨ ∃ i ∈ f.code, i.HasLabel l

/-- May place `j` come right after the instruction `i` at place `n`? -/
def Func.Next (f : Func) (n : Nat) (i : Instr) (j : Nat) : Prop :=
  (i.fallsThrough = true ∧ j = n + 1) ∨ ∃ l ∈ i.targets, f.labelIndex? l = some j

/-- Some path from place `n` uses `x` before it defines it. -/
inductive Live (c : Convention) (f : Func) : Nat → Operand → Prop
  | used {n : Nat} {i : Instr} {x : Operand} :
      f.code[n]? = some i → x ∈ i.uses c → Live c f n x
  | kept {n j : Nat} {i : Instr} {x : Operand} :
      f.code[n]? = some i → f.Next n i j → Live c f j x → x ∉ i.defs c → Live c f n x

/-- Nothing is live past the end of a function. -/
theorem Live.lt_length {c : Convention} {f : Func} {n : Nat} {x : Operand} (h : Live c f n x) :
    n < f.code.length := by
  cases h with
  | used hi _ => exact (List.getElem?_eq_some_iff.mp hi).1
  | kept hi _ _ _ => exact (List.getElem?_eq_some_iff.mp hi).1

/-- Every label to which a function may jump is defined in it. -/
def Func.Resolves (f : Func) : Prop := ∀ i ∈ f.code, ∀ l ∈ i.targets, .label l ∈ f.code

instance (f : Func) : Decidable f.Resolves :=
  inferInstanceAs (Decidable (∀ i ∈ f.code, ∀ l ∈ i.targets, .label l ∈ f.code))

/-- An instruction and its place in the code. -/
theorem mem_zipIdx_iff {code : List Instr} {i : Instr} {n : Nat} :
    (i, n) ∈ code.zipIdx ↔ code[n]? = some i := List.mem_zipIdx_iff_getElem?

/-! ## Labels -/

theorem labelIndex?_eq_none {f : Func} {l : Label} : f.labelIndex? l = none ↔ .label l ∉ f.code :=
  List.idxOf?_eq_none_iff

theorem Func.Resolves.exists_labelIndex? {f : Func} {i : Instr} {l : Label} (h : f.Resolves)
    (hi : i ∈ f.code) (hl : l ∈ i.targets) : ∃ j, f.labelIndex? l = some j := by
  cases hj : f.labelIndex? l with
  | some j => exact ⟨j, rfl⟩
  | none => exact absurd (h i hi l hl) (labelIndex?_eq_none.mp hj)

theorem labelIndex?_lt {f : Func} {l : Label} {j : Nat} (h : f.labelIndex? l = some j) :
    j < f.code.length := (List.idxOf?_eq_some_iff.mp h).1

/-- A rewriting of instructions that makes no label and removes none leaves labels in place. -/
theorem idxOf?_label_map {h : Instr → Instr}
    (hl : ∀ i l, h i = .label l ↔ i = .label l) (code : List Instr) (l : Label) :
    (code.map h).idxOf? (.label l) = code.idxOf? (.label l) := by
  induction code with
  | nil => rfl
  | cons i code ih =>
      rw [List.map_cons, List.idxOf?_cons, List.idxOf?_cons, ih]
      have hi : (h i == .label l) = (i == .label l) := by
        rw [Bool.eq_iff_iff, beq_iff_eq, beq_iff_eq]
        exact hl i l
      rw [hi]

namespace Flow

variable {f : Func} {n : Nat} {i : Instr}

theorem target_eq_ok {l : Label} {j : Nat} : target f n i l = .ok j ↔ f.labelIndex? l = some j := by
  unfold target
  cases f.labelIndex? l with
  | none => simp
  | some k => simp

theorem target_eq_error {l : Label} {e : Error} (h : target f n i l = .error e) :
    e = .of (.unresolvedLabel n i l) ∧ .label l ∉ f.code := by
  unfold target at h
  cases hl : f.labelIndex? l with
  | none =>
      rw [hl] at h
      cases h
      exact ⟨rfl, labelIndex?_eq_none.mp hl⟩
  | some k =>
      rw [hl] at h
      cases h

/-! ## Successors -/

theorem successors_of_fallsThrough (hf : i.fallsThrough = true) :
    successors f n i = .ok (if n + 1 < f.code.length then [n + 1] else []) := by
  cases i <;> first | rfl | cases hf

theorem targets_of_fallsThrough (hf : i.fallsThrough = true) : i.targets = [] := by
  cases i <;> first | rfl | cases hf

/-- The successors of an instruction are the places that come next inside the function. -/
theorem mem_successors {js : List Nat} (h : successors f n i = .ok js) {j : Nat} :
    j ∈ js ↔ f.Next n i j ∧ j < f.code.length := by
  unfold Func.Next
  cases hf : i.fallsThrough with
  | true =>
      rw [successors_of_fallsThrough hf] at h
      cases h
      rw [targets_of_fallsThrough hf]
      split
      · simp only [List.mem_singleton, List.not_mem_nil]
        grind
      · simp only [List.not_mem_nil]
        grind
  | false =>
      cases i with
      | cjump cond x y yes no =>
          obtain ⟨t, ht, h⟩ := bind_eq_ok.mp h
          obtain ⟨e, he, h⟩ := bind_eq_ok.mp h
          cases h
          rw [target_eq_ok] at ht he
          have hts := labelIndex?_lt ht
          have hes := labelIndex?_lt he
          have hmem : (j ∈ if t = e then [t] else [t, e]) ↔ j = t ∨ j = e := by
            split
            · rename_i hte
              simp [hte]
            · simp
          rw [hmem]
          simp only [Instr.targets, List.mem_cons, List.not_mem_nil, or_false]
          grind
      | goto l =>
          obtain ⟨t, ht, h⟩ := bind_eq_ok.mp h
          cases h
          rw [target_eq_ok] at ht
          have hts := labelIndex?_lt ht
          simp only [Instr.targets, List.mem_singleton]
          grind
      | ret =>
          cases h
          simp [Instr.targets]
      | _ => cases hf

/-- An instruction without successors has a target that is not defined. -/
theorem successors_eq_error {e : Error} (h : successors f n i = .error e) :
    ∃ l ∈ i.targets, e = .of (.unresolvedLabel n i l) ∧ .label l ∉ f.code := by
  cases i with
  | cjump cond x y yes no =>
      rcases bind_eq_error.mp h with h | ⟨t, _, h⟩
      · exact ⟨yes, by simp [Instr.targets], target_eq_error h⟩
      · rcases bind_eq_error.mp h with h | ⟨u, _, h⟩
        · exact ⟨no, by simp [Instr.targets], target_eq_error h⟩
        · cases h
  | goto l =>
      rcases bind_eq_error.mp h with h | ⟨t, _, h⟩
      · exact ⟨l, by simp [Instr.targets], target_eq_error h⟩
      · cases h
  | _ => cases h

/-! ## Resolving a function -/

/-- Resolving gives every instruction its successors. -/
theorem succ_of_resolve {flow : Flow} (h : resolve f = .ok flow) (hi : f.code[n]? = some i) :
    ∃ js, flow.succ[n]? = some js ∧ successors f n i = .ok js := by
  obtain ⟨succ, hsucc, h⟩ := bind_eq_ok.mp h
  cases h
  have hmap := congrArg (·[n]?) (mapM_eq_ok.mp hsucc)
  simp only [List.getElem?_map, List.getElem?_zipIdx, hi, Option.map_some, Nat.zero_add] at hmap
  cases hjs : succ[n]? with
  | none => rw [hjs] at hmap; cases hmap
  | some js =>
      rw [hjs] at hmap
      exact ⟨js, rfl, Option.some.inj hmap⟩

theorem length_succ_of_resolve {flow : Flow} (h : resolve f = .ok flow) :
    flow.succ.length = f.code.length := by
  obtain ⟨succ, hsucc, h⟩ := bind_eq_ok.mp h
  cases h
  have hlength := congrArg List.length (mapM_eq_ok.mp hsucc)
  simpa using hlength.symm

/-- Resolving fails only at a jump without a target. -/
theorem resolve_eq_error {e : Error} (h : resolve f = .error e) :
    (∃ n i l, e = .of (.unresolvedLabel n i l)) ∧ ¬ f.Resolves := by
  rcases bind_eq_error.mp h with h | ⟨_, _, h⟩
  · obtain ⟨⟨i, n⟩, hmem, hfail⟩ := mapM_eq_error h
    obtain ⟨l, hl, he, hmiss⟩ := successors_eq_error hfail
    refine ⟨⟨n, i, l, he⟩, fun hres => hmiss ?_⟩
    exact hres i (List.mem_of_getElem? (mem_zipIdx_iff.mp hmem)) l hl
  · cases h

/-- Resolving succeeds exactly if every jump has a target. -/
theorem resolve_eq_ok_iff : (∃ flow, resolve f = .ok flow) ↔ f.Resolves := by
  constructor
  · rintro ⟨flow, h⟩ i hi l hl
    obtain ⟨n, hn⟩ := List.getElem?_of_mem hi
    obtain ⟨js, _, hjs⟩ := succ_of_resolve h hn
    refine Classical.byContradiction fun hmiss => ?_
    rw [← labelIndex?_eq_none] at hmiss
    cases i with
    | cjump cond x y yes no =>
        obtain ⟨t, ht, hjs⟩ := bind_eq_ok.mp hjs
        obtain ⟨e, he, _⟩ := bind_eq_ok.mp hjs
        rw [target_eq_ok] at ht he
        simp only [Instr.targets, List.mem_cons, List.not_mem_nil, or_false] at hl
        rcases hl with rfl | rfl
        · rw [ht] at hmiss; cases hmiss
        · rw [he] at hmiss; cases hmiss
    | goto l' =>
        obtain ⟨t, ht, _⟩ := bind_eq_ok.mp hjs
        rw [target_eq_ok] at ht
        simp only [Instr.targets, List.mem_singleton] at hl
        subst hl
        rw [ht] at hmiss
        cases hmiss
    | _ => cases hl
  · intro hres
    cases h : resolve f with
    | ok flow => exact ⟨flow, rfl⟩
    | error e => exact absurd hres (resolve_eq_error h).2

end Flow

end Spillway
