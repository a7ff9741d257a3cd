import Mathlib.Data.List.Forall2
import Spillway.Proofs.Code.Vars
import Spillway.Proofs.Liveness.Paths

/-!
# Windows of a spilled function

Spilling turns every instruction into a window of instructions. What a window looks like does not
depend on where it stands, except for the name of its temporary, of which only freshness matters
(`Spill.Window`, `windows_forall₂`). `position` is the place of the first instruction of a window in
the new code; labels move there with their windows (`idxOf?_label_flatten`). The new function is
laid out window by window (`Spill.Layout`).
-/

namespace Spillway

namespace Spill

/-! ## Temporaries -/

theorem tempName_inj {stem : String} {m n : Nat} (h : tempName stem m = tempName stem n) :
    m = n := by
  have htext : Decimal.text (m : Int) = Decimal.text (n : Int) := by
    have hname := congrArg (fun v : Var => v.name.toList) h
    simp only [tempName, String.toList_append, List.append_cancel_left_eq] at hname
    exact String.toList_inj.mp hname
  have hread := congrArg (fun t => Decimal.readInt? t.toList) htext
  simp only [Decimal.readInt?_text, Option.some.injEq] at hread
  exact Int.ofNat.inj hread

theorem tempName_ne_empty (stem : String) (n : Nat) : (tempName stem n).name ≠ "" := by
  intro h
  have hread := Decimal.readInt?_text (n : Int)
  have hnil : (Decimal.text (n : Int)).toList = [] := by
    have hlist := congrArg String.toList h
    rw [tempName, String.toList_append] at hlist
    exact (List.append_eq_nil_iff.mp hlist).2
  rw [hnil] at hread
  cases hread

theorem le_firstUnused (stem : String) (used : List Var) (n : Nat) :
    n ≤ firstUnused stem used n := by
  induction used, n using firstUnused.induct stem with
  | case1 used n h ih =>
      rw [firstUnused, if_pos h]
      omega
  | case2 used n h => exact Nat.le_of_eq (by rw [firstUnused, if_neg h])

/-- The number that is taken gives a name that is not in use. -/
theorem firstUnused_not_mem (stem : String) (used : List Var) (n : Nat) :
    tempName stem (firstUnused stem used n) ∉ used := by
  induction used, n using firstUnused.induct stem with
  | case1 used n h ih =>
      rw [firstUnused, if_pos h]
      intro hmem
      have hle := le_firstUnused stem (used.erase (tempName stem n)) (n + 1)
      have hne : tempName stem (firstUnused stem (used.erase (tempName stem n)) (n + 1)) ≠
          tempName stem n := by
        intro he
        have := tempName_inj he
        omega
      exact ih ((List.mem_erase_of_ne hne).mpr hmem)
  | case2 used n h => rw [firstUnused, if_neg h]; exact h

/-! ## Windows -/

/-- An element that is not in the first list is looked for in the second. -/
theorem idxOf?_append_of_not_mem {xs ys : List Instr} {x : Instr} (h : x ∉ xs) :
    (xs ++ ys).idxOf? x = (ys.idxOf? x).map (xs.length + ·) := by
  induction xs with
  | nil => simp
  | cons y xs ih =>
      rw [List.mem_cons, not_or] at h
      have hy : (y == x) = false := by simpa using fun e => h.1 e.symm
      rw [List.cons_append, List.idxOf?_cons, hy, ih h.2, Option.map_map]
      simp only [Bool.false_eq_true, if_false]
      congr 1
      funext n
      simp only [Function.comp_apply, List.length_cons]
      omega

/-- The windows that an instruction, with its slots raised, may become when `v` is spilled from a
function with the variables `used`. -/
inductive Window (v : Var) (used : List Var) (i : Instr) : List Instr → Prop
  | plain : .var v ∉ i.slots → Window v used i [i]
  | slot {j : Instr} : i.inSlot? v = some j → Window v used i [j]
  | temp {t : Var} : .var v ∈ i.slots → i.inSlot? v = none → t ∉ used → t.name ≠ "" →
      Window v used i (i.throughTemp v t)

theorem window_withoutTemp {v : Var} {i : Instr} (used : List Var) (h : i.needsTemp v = false) :
    Window v used i (i.withoutTemp v) := by
  unfold Instr.withoutTemp
  split
  · rename_i href
    cases hj : i.inSlot? v with
    | none => simp [Instr.needsTemp, href, hj] at h
    | some j => exact .slot hj
  · rename_i href
    exact .plain (Instr.references_var_eq_false.mp (by simpa using href))

/-- Every instruction becomes a window. -/
theorem windows_forall₂ (v : Var) (stem : String) (used : List Var) (code : List Instr) (n : Nat) :
    List.Forall₂ (fun i w => Window v used i.raiseSlots w) code
      (windows v stem used n code).1 := by
  induction code generalizing n with
  | nil => exact .nil
  | cons i code ih =>
      simp only [windows]
      split
      · rename_i hneeds
        refine .cons ?_ (ih _)
        simp only [Instr.needsTemp, Bool.and_eq_true, Option.isNone_iff_eq_none] at hneeds
        exact .temp (Instr.references_var.mp hneeds.1) hneeds.2 (firstUnused_not_mem stem used n)
          (tempName_ne_empty stem _)
      · rename_i hneeds
        exact .cons (window_withoutTemp used (by simpa using hneeds)) (ih _)

end Spill

/-! ## Working on the slot -/

/-- The instruction `i` with the variable `v` replaced by the lowest slot is `j`. -/
inductive Folded (v : Var) : Instr → Instr → Prop
  | moveTo {src : Operand} : src ≠ .var v →
      Folded v (.mov (.var v) src) (.store .rsp 0 src)
  | moveFrom {dst : Operand} : dst ≠ .var v →
      Folded v (.mov dst (.var v)) (.load dst .rsp 0)
  | updateTo {op : Op} {src : Operand} : op = .add ∨ op = .sub → src ≠ .var v →
      Folded v (.arith op (.var v) src) (.memArith op .rsp 0 src)
  | updateFrom {op : Op} {dst : Operand} : op = .add ∨ op = .sub → dst ≠ .var v →
      Folded v (.arith op dst (.var v)) (.arithLoad op dst .rsp 0)

theorem Instr.folded_of_inSlot? {v : Var} {i j : Instr} (h : i.inSlot? v = some j) :
    Folded v i j := by
  cases i with
  | mov dst src =>
      simp only [inSlot?] at h
      split at h
      · rename_i hcase
        cases h
        rw [hcase.1]
        exact .moveTo hcase.2
      · split at h
        · rename_i hcase
          cases h
          rw [hcase.1]
          exact .moveFrom hcase.2
        · cases h
  | arith op dst src =>
      simp only [inSlot?] at h
      split at h
      · cases h
      · rename_i hop
        have hop : op = .add ∨ op = .sub := by
          by_cases hadd : op = .add
          · exact .inl hadd
          · exact .inr (Classical.byContradiction fun hsub => hop ⟨hadd, hsub⟩)
        split at h
        · rename_i hcase
          cases h
          rw [hcase.1]
          exact .updateTo hop hcase.2
        · split at h
          · rename_i hcase
            cases h
            rw [hcase.1]
            exact .updateFrom hop hcase.2
          · cases h
  | _ => cases h

theorem Instr.mem_throughTemp {v t : Var} {i j : Instr} :
    j ∈ i.throughTemp v t ↔
      (j = .load (.var t) .rsp 0 ∧ i.reads v = true) ∨
      j = i.mapOperands (Operand.rename v t) ∨
      (j = .store .rsp 0 (.var t) ∧ i.writes v = true) := by
  simp only [throughTemp, List.mem_append, List.mem_singleton]
  split <;> split <;> simp_all [or_assoc]

theorem Instr.length_throughTemp (v t : Var) (i : Instr) :
    (i.throughTemp v t).length =
      (if i.reads v then 1 else 0) + 1 + (if i.writes v then 1 else 0) := by
  unfold throughTemp
  split <;> split <;> rfl

theorem Instr.throughTemp_load {v : Var} (t : Var) {i : Instr} (h : i.reads v = true) :
    (i.throughTemp v t)[0]? = some (.load (.var t) .rsp 0) := by
  unfold throughTemp
  rw [if_pos h]
  rfl

theorem Instr.throughTemp_work (v t : Var) (i : Instr) :
    (i.throughTemp v t)[if i.reads v then 1 else 0]? =
      some (i.mapOperands (Operand.rename v t)) := by
  unfold throughTemp
  split <;> rfl

theorem Instr.throughTemp_store {v : Var} (t : Var) {i : Instr} (h : i.writes v = true) :
    (i.throughTemp v t)[(if i.reads v then 1 else 0) + 1]? = some (.store .rsp 0 (.var t)) := by
  unfold throughTemp
  rw [if_pos h]
  split <;> rfl

/-! ## Labels -/

namespace Spill.Window

variable {v : Var} {used : List Var} {i : Instr} {ws : List Instr}

/-- A label definition is a window of its own, and no other window defines a label. -/
theorem label_cases (h : Window v used i ws) :
    (∃ l, i = .label l ∧ ws = [.label l]) ∨
      ((∀ l, i ≠ .label l) ∧ ∀ j ∈ ws, ∀ l, j ≠ .label l) := by
  cases h with
  | plain hv =>
      by_cases hl : ∃ l, i = .label l
      · obtain ⟨l, rfl⟩ := hl
        exact .inl ⟨l, rfl, rfl⟩
      · refine .inr ⟨fun l h => hl ⟨l, h⟩, fun j hj l h => hl ⟨l, ?_⟩⟩
        rw [← List.mem_singleton.mp hj, h]
  | slot hj =>
      right
      cases Instr.folded_of_inSlot? hj <;> simp
  | @temp t hv _ _ _ =>
      have hi : ∀ l, i ≠ .label l := by
        rintro l rfl
        cases hv
      refine .inr ⟨hi, fun j hj l h => ?_⟩
      subst h
      rcases Instr.mem_throughTemp.mp hj with ⟨h, _⟩ | h | ⟨h, _⟩
      · cases h
      · cases i <;> simp only [Instr.mapOperands, reduceCtorEq, Instr.label.injEq] at h
        exact hi l (congrArg Instr.label h.symm)
      · cases h

theorem label_filterMap (h : Window v used i ws) :
    ws.filterMap Instr.label? = i.label?.toList := by
  rcases h.label_cases with ⟨l, rfl, rfl⟩ | ⟨hi, hws⟩
  · rfl
  · have hnone : ∀ j : Instr, (∀ l, j ≠ .label l) → j.label? = none := by
      intro j hj
      cases j <;> first | rfl | exact absurd rfl (hj _)
    rw [hnone i hi, List.filterMap_eq_nil_iff.mpr fun j hj => hnone j (hws j hj)]
    rfl

end Spill.Window

theorem mem_filterMap_label? {code : List Instr} {l : Label} :
    l ∈ code.filterMap Instr.label? ↔ .label l ∈ code := by
  rw [List.mem_filterMap]
  constructor
  · rintro ⟨i, hi, hl⟩
    cases i <;> cases hl
    exact hi
  · exact fun h => ⟨.label l, h, rfl⟩

theorem label?_raiseSlots (i : Instr) : i.raiseSlots.label? = i.label? := by
  cases i <;> rfl

namespace Spill

variable {v : Var} {used : List Var} {code : List Instr} {ws : List (List Instr)}

/-- Windows define the labels of the instructions, in their order. -/
theorem filterMap_label_flatten
    (h : List.Forall₂ (fun i w => Window v used i.raiseSlots w) code ws) :
    ws.flatten.filterMap Instr.label? = code.filterMap Instr.label? := by
  induction h with
  | nil => rfl
  | @cons i w code ws hi _ ih =>
      rw [List.flatten_cons, List.filterMap_append, ih, hi.label_filterMap, label?_raiseSlots]
      cases hl : i.label? with
      | none => simp [hl]
      | some l => simp [hl]

/-! ## Positions -/

/-- The place of the first instruction of the window of a place. -/
def position (ws : List (List Instr)) (n : Nat) : Nat := (ws.take n).flatten.length

@[simp] theorem position_zero (ws : List (List Instr)) : position ws 0 = 0 := rfl

theorem position_cons_succ (w : List Instr) (ws : List (List Instr)) (n : Nat) :
    position (w :: ws) (n + 1) = w.length + position ws n := by
  simp [position]

theorem position_succ {n : Nat} {w : List Instr} (h : ws[n]? = some w) :
    position ws (n + 1) = position ws n + w.length := by
  simp only [position]
  rw [List.take_add_one, h]
  simp

/-- A window stands in the code at its position. -/
theorem getElem?_position {n k : Nat} {w : List Instr} {i : Instr} (h : ws[n]? = some w)
    (hk : w[k]? = some i) : ws.flatten[position ws n + k]? = some i := by
  induction ws generalizing n with
  | nil => simp at h
  | cons w' ws ih =>
      cases n with
      | zero =>
          cases h
          simp only [position_zero, Nat.zero_add, List.flatten_cons]
          rw [List.getElem?_append_left (List.getElem?_eq_some_iff.mp hk).1]
          exact hk
      | succ n =>
          rw [position_cons_succ, List.flatten_cons, Nat.add_assoc,
            List.getElem?_append_right (Nat.le_add_right _ _), Nat.add_sub_cancel_left]
          exact ih (by simpa using h)

/-- Past the last window the code is over. -/
theorem getElem?_position_none {n : Nat} (h : ws[n]? = none) :
    ws.flatten[position ws n]? = none := by
  rw [List.getElem?_eq_none_iff] at h ⊢
  exact Nat.le_of_eq (by rw [position, List.take_of_length_le h])

/-- A label that the function defines moves to the position of its window. -/
theorem idxOf?_label_flatten
    (h : List.Forall₂ (fun i w => Window v used i.raiseSlots w) code ws) (l : Label) :
    ws.flatten.idxOf? (.label l) = (code.idxOf? (.label l)).map (position ws) := by
  induction h with
  | nil => rfl
  | @cons i w code ws hi _ ih =>
      rw [List.flatten_cons, List.idxOf?_cons]
      by_cases hl : i = .label l
      · subst hl
        rcases hi.label_cases with ⟨l', hl', rfl⟩ | ⟨hne, _⟩
        · cases hl'
          simp [List.idxOf?_cons]
        · exact absurd rfl (hne l)
      · -- the window may define another label, but not this one
        have hw : ∀ j ∈ w, j ≠ .label l := by
          rcases hi.label_cases with ⟨l', hl', rfl⟩ | ⟨_, hw⟩
          · intro j hj
            rw [List.mem_singleton.mp hj, ← hl']
            cases i <;> simp_all [Instr.raiseSlots]
          · exact fun j hj => hw j hj l
        rw [idxOf?_append_of_not_mem (fun hmem => hw _ hmem rfl), ih]
        simp only [beq_iff_eq, hl, if_false, Option.map_map]
        congr 1
        funext n
        simp only [Function.comp_apply, position_cons_succ]

/-! ## The spilled function -/

variable {f g : Func} {i : Instr}

/-- The function that the windows make up. -/
structure Layout (f : Func) (v : Var) (ws : List (List Instr)) (g : Func) : Prop where
  windows : List.Forall₂ (fun i w => Window v f.vars i.raiseSlots w) f.code ws
  locals : g.locals = f.locals + 1
  code : g.code = ws.flatten

namespace Layout

theorem labelIndex? (h : Layout f v ws g) (l : Label) :
    g.labelIndex? l = (f.labelIndex? l).map (position ws) := by
  unfold Func.labelIndex?
  rw [h.code]
  exact idxOf?_label_flatten h.windows l

/-- The instruction of a window. -/
theorem getElem? (h : Layout f v ws g) {n k : Nat} {win : List Instr} {j : Instr}
    (hwin : ws[n]? = some win) (hk : win[k]? = some j) : g.code[position ws n + k]? = some j := by
  rw [h.code]
  exact getElem?_position hwin hk

/-- An instruction has a window. -/
theorem window (h : Layout f v ws g) {n : Nat} (hi : f.code[n]? = some i) :
    ∃ win, ws[n]? = some win ∧ Window v f.vars i.raiseSlots win := by
  obtain ⟨hlen, hget⟩ := List.forall₂_iff_get.mp h.windows
  obtain ⟨hn, rfl⟩ := List.getElem?_eq_some_iff.mp hi
  have hn' : n < ws.length := by rw [← hlen]; exact hn
  exact ⟨ws[n], List.getElem?_eq_getElem hn', hget n hn hn'⟩

theorem window_none (h : Layout f v ws g) {n : Nat} (hi : f.code[n]? = none) : ws[n]? = none := by
  rw [List.getElem?_eq_none_iff] at hi ⊢
  rw [← h.windows.length_eq]
  exact hi

theorem code_none (h : Layout f v ws g) {n : Nat} (hwin : ws[n]? = none) : f.code[n]? = none := by
  rw [List.getElem?_eq_none_iff] at hwin ⊢
  rw [h.windows.length_eq]
  exact hwin

/-- No window is empty. -/
theorem window_length_pos (h : Layout f v ws g) {n : Nat} {win : List Instr}
    (hwin : ws[n]? = some win) : 0 < win.length := by
  cases hi : f.code[n]? with
  | none =>
      rw [h.window_none hi] at hwin
      cases hwin
  | some i =>
      obtain ⟨win', hwin', hwindow⟩ := h.window hi
      cases hwin.symm.trans hwin'
      cases hwindow with
      | plain _ => exact Nat.one_pos
      | slot _ => exact Nat.one_pos
      | temp _ _ _ _ =>
          rw [Instr.length_throughTemp]
          omega

end Layout

end Spill

end Spillway
