import Spillway.Proofs.Coloring
import Spillway.Proofs.Convention
import Spillway.Proofs.Liveness.Operands
import Spillway.Proofs.Semantics.Renaming

/-!
# Assigning a proper coloring

If every variable of a function has a register, assigning them succeeds, and the result is the
function with its operands renamed (`Func.assign_of_assigned`). Registers of a proper coloring of
the interference graph overwrite nothing that the tables list (`Coloring.Proper.renaming_listed`),
and so nothing that is live (`Coloring.Proper.toRenaming`): the result means the same.
-/

namespace Spillway

variable {a : Assignment} {f g : Func}

/-! ## Success -/

/-- Every variable of the function has a register. -/
def Func.Assigned (f : Func) (a : Assignment) : Prop :=
  ∀ v ∈ f.vars, ∃ r, a.lookup v = some r

namespace Operand

@[simp] theorem assign_of_var?_eq_none {x : Operand} (h : x.var? = none) : x.assign a = x := by
  cases x with
  | var v => cases h
  | _ => rfl

theorem assign_of_lookup {v : Var} {r : Reg} (h : a.lookup v = some r) :
    (var v).assign a = reg r := by
  simp only [assign, h]

end Operand

namespace Func

theorem mapOperands_eq_hole (ρ : Operand → Operand) (i : Instr) :
    i.mapOperands ρ = .hole ↔ i = .hole := by
  cases i <;> simp [Instr.mapOperands]

theorem isComplete_rename (f : Func) (ρ : Operand → Operand) :
    (f.rename ρ).isComplete = f.isComplete := by
  rw [Bool.eq_iff_iff, isComplete_iff, isComplete_iff]
  simp [rename, mapOperands_eq_hole]

/-- A function in which every variable has a register has none left. -/
theorem vars_rename_assign (h : f.Assigned a) : (f.rename (Operand.assign a)).vars = [] := by
  refine List.eq_nil_iff_forall_not_mem.mpr fun v hv => ?_
  obtain ⟨j, hj, hvj⟩ := mem_vars.mp hv
  obtain ⟨i, hi, rfl⟩ := List.mem_map.mp hj
  rw [Instr.slots_mapOperands] at hvj
  obtain ⟨x, hx, hxv⟩ := List.mem_map.mp hvj
  cases x with
  | var w =>
      obtain ⟨r, hr⟩ := h w (mem_vars.mpr ⟨i, hi, hx⟩)
      rw [Operand.assign_of_lookup hr] at hxv
      cases hxv
  | _ => cases hxv

theorem vars_eq_nil_iff : f.vars = [] ↔ ∀ i ∈ f.code, i.vars = [] := by
  simp only [List.eq_nil_iff_forall_not_mem, mem_vars, Instr.mem_vars]
  grind

/-- The check finds no variable exactly if there is none. -/
theorem checkNoVars_eq_ok (hc : f.isComplete = true) : f.checkNoVars = .ok () ↔ f.vars = [] := by
  have hne : ∀ i ∈ f.code, i ≠ .hole := fun i hi h => isComplete_iff.mp hc (h ▸ hi)
  unfold checkNoVars
  rw [forM_eq_ok, vars_eq_nil_iff]
  constructor
  · intro h i hi
    obtain ⟨n, hn⟩ := List.getElem?_of_mem hi
    have hin := h (i, n) (mem_zipIdx_iff.mpr hn)
    simp only [Instr.present, if_neg (hne i hi), ok_bind] at hin
    split at hin
    · assumption
    · cases hin
  · rintro h ⟨i, n⟩ hin
    have hi := List.mem_of_getElem? (mem_zipIdx_iff.mp hin)
    simp only [Instr.present, if_neg (hne i hi), ok_bind, h i hi]
    rfl

/-- The check finds no variable without a register exactly if all have one. -/
theorem checkAssigned_eq_ok : f.checkAssigned a = .ok () ↔ f.Assigned a := by
  unfold checkAssigned Assigned
  rw [forM_eq_ok]
  constructor
  · intro h v hv
    obtain ⟨i, hi, hvi⟩ := mem_vars.mp hv
    obtain ⟨n, hn⟩ := List.getElem?_of_mem hi
    have hin := h (i, n) (mem_zipIdx_iff.mpr hn)
    simp only at hin
    split at hin
    · rename_i hfind
      have hv := List.find?_eq_none.mp hfind v (Instr.mem_vars.mpr hvi)
      exact Option.ne_none_iff_exists'.mp (by simpa using hv)
    · cases hin
  · rintro h ⟨i, n⟩ hin
    have hi := List.mem_of_getElem? (mem_zipIdx_iff.mp hin)
    have hfind : (i.vars.find? fun v => (a.lookup v).isNone) = none := by
      refine List.find?_eq_none.mpr fun v hv => ?_
      obtain ⟨r, hr⟩ := h v (mem_vars.mpr ⟨i, hi, Instr.mem_vars.mp hv⟩)
      simp [hr]
    simp only [hfind]

/-- Assigning registers succeeds if every variable has one, and is a renaming. -/
theorem assign_of_assigned (hc : f.isComplete = true) (h : f.Assigned a) :
    f.assign a = .ok (f.rename (Operand.assign a)) := by
  have hcheck : (f.rename (Operand.assign a)).checkNoVars = .ok () :=
    (checkNoVars_eq_ok (by rw [isComplete_rename, hc])).mpr (vars_rename_assign h)
  unfold assign
  rw [complete_of_isComplete hc, ok_bind, checkAssigned_eq_ok.mpr h, ok_bind]
  show ((f.rename (Operand.assign a)).checkNoVars >>= fun _ => .ok (f.rename _)) = _
  rw [hcheck, ok_bind]

theorem assign_eq_ok (h : f.assign a = .ok g) :
    f.isComplete = true ∧ f.Assigned a ∧ g = f.rename (Operand.assign a) := by
  obtain ⟨f', hf', hrest⟩ := bind_eq_ok.mp h
  obtain ⟨hc, rfl⟩ := complete_eq_ok.mp hf'
  obtain ⟨_, hassigned, _⟩ := bind_eq_ok.mp hrest
  have hassigned := checkAssigned_eq_ok.mp hassigned
  rw [assign_of_assigned hc hassigned] at h
  cases h
  exact ⟨hc, hassigned, rfl⟩

end Func

/-! ## Nothing live is overwritten -/

namespace Liveness

variable {c : Convention} {live : Liveness} {n j k : Nat} {i : Instr} {x : Operand}

/-- What may be needed at a place as far as the tables tell: the nodes that they list, and whatever
is neither a node nor a variable. -/
def Listed (live : Liveness) (n : Nat) (x : Operand) : Prop :=
  match live.nodes.id? x with
  | some k => k ∈ (row live.rows n).before
  | none => x.var? = none

theorem listed_of_id? (hx : live.nodes.id? x = some k) :
    live.Listed n x ↔ k ∈ (row live.rows n).before := by
  unfold Listed
  rw [hx]

theorem listed_of_id?_eq_none (hx : live.nodes.id? x = none) :
    live.Listed n x ↔ x.var? = none := by
  unfold Listed
  rw [hx]

/-- The variables of the function are nodes. -/
theorem Solution.id?_var (h : Solution c f live) {v : Var} (hv : v ∈ f.vars) :
    ∃ k, live.nodes.id? (.var v) = some k := by
  refine Nodes.id?_var_of_mem ?_
  rw [h.nodes]
  exact hv

/-- Only variables of the function are listed. -/
theorem Solution.mem_vars_of_listed (h : Solution c f live) {v : Var}
    (hv : live.Listed n (.var v)) : v ∈ f.vars := by
  cases hid : live.nodes.id? (.var v) with
  | none => cases (listed_of_id?_eq_none hid).mp hv
  | some k =>
      have hmem := Nodes.mem_vars_of_id? hid
      rwa [h.nodes] at hmem

/-- What is listed at a next place is listed after the instruction. -/
theorem Solution.mem_after_of_listed (h : Solution c f live) (hi : f.code[n]? = some i)
    (hnext : f.Next n i j) (hx : live.Listed j x) (hid : live.nodes.id? x = some k) :
    k ∈ (row live.rows n).after := by
  have hk := (listed_of_id? hid).mp hx
  have hj : j < f.code.length := by
    rw [← h.size]
    exact lt_size_of_mem_before hk
  refine (h.after k (List.getElem?_eq_some_iff.mp hi).1).mpr ⟨j, ?_, hk⟩
  exact (h.mem_succ hi).mpr ⟨hnext, hj⟩

/-- What is live is listed. -/
theorem Solution.listed_of_live (h : Solution c f live) (hx : Live c f n x) : live.Listed n x := by
  cases hid : live.nodes.id? x with
  | some k => exact (listed_of_id? hid).mpr (h.mem_before hx hid)
  | none =>
      rw [listed_of_id?_eq_none hid, Option.eq_none_iff_forall_ne_some]
      intro v hv
      obtain rfl := Operand.eq_var_of_var? hv
      obtain ⟨k, hk⟩ := h.id?_var hx.mem_vars
      rw [hid] at hk
      cases hk

/-- The tables list a family of live sets. -/
theorem Solution.liveFamily (h : Solution c f live) : LiveFamily c f live.Listed := by
  constructor
  · intro n i x hi hu
    cases hid : live.nodes.id? x with
    | some k =>
        rw [listed_of_id? hid, h.before k (List.getElem?_eq_some_iff.mp hi).1]
        exact .inl ((h.mem_gen hi hid).mpr hu)
    | none =>
        -- the variables that an instruction uses are nodes
        rw [listed_of_id?_eq_none hid, Option.eq_none_iff_forall_ne_some]
        intro v hv
        obtain rfl := Operand.eq_var_of_var? hv
        have hmem : v ∈ f.vars :=
          Func.mem_vars.mpr ⟨i, List.mem_of_getElem? hi, Instr.mem_slots_of_uses hu⟩
        obtain ⟨k, hk⟩ := h.id?_var hmem
        rw [hid] at hk
        cases hk
  · intro n j i x hi hnext hx hdef
    cases hid : live.nodes.id? x with
    | some k =>
        rw [listed_of_id? hid, h.before k (List.getElem?_eq_some_iff.mp hi).1]
        refine .inr ⟨h.mem_after_of_listed hi hnext hx hid, fun hkill => ?_⟩
        exact hdef ((h.mem_kill hi hid).mp hkill)
    | none =>
        rw [listed_of_id?_eq_none hid] at hx ⊢
        exact hx

end Liveness

namespace Coloring.Proper

variable {c : Convention} {live : Liveness} {i : Interference}

/-- The new name of a variable of the function is a register of the palette. -/
theorem assign_var (h : Proper c i.graph a) {v : Var} (hv : v ∈ i.graph.nodes.vars) :
    ∃ r ∈ c.palette, (Operand.var v).assign a = .reg r := by
  obtain ⟨r, hr⟩ := h.total v hv
  exact ⟨r, h.palette hr, Operand.assign_of_lookup hr⟩

/-- An operand without a variable whose new name is a register of the palette is a node. -/
theorem id?_of_assign (hlive : Liveness.Solution c f live) (hrsp : Reg.rsp ∉ c.palette)
    {x : Operand} (hx : x.var? = none) {r : Reg} (hr : r ∈ c.palette)
    (hname : x.assign a = .reg r) : ∃ b, live.nodes.id? x = some b := by
  rw [Operand.assign_of_var?_eq_none hx] at hname
  subst hname
  refine Nodes.id?_reg_of_mem (fun e => hrsp (e ▸ hr)) ?_
  rw [hlive.nodes]
  exact List.mem_eraseDups.mpr hr

/-- A proper coloring of the interference graph overwrites nothing that the tables list. -/
theorem renaming_listed (hlive : Liveness.Solution c f live)
    (hbuild : Interference.build c f live = .ok i) (hrsp : Reg.rsp ∉ c.palette)
    (h : Proper c i.graph a) :
    Renaming c f live.Listed (Operand.assign a) := by
  have hnodes := Interference.nodes_build hlive.size hbuild
  have hvars : ∀ v ∈ f.vars, v ∈ i.graph.nodes.vars := by
    intro v hv
    rw [hnodes, hlive.nodes]
    exact hv
  refine ⟨fun x hx => Operand.assign_of_var?_eq_none hx, fun v => ?_, fun v hv => ?_,
    fun {n j k d x} hk hnext hx hd hname => ?_⟩
  · cases hl : a.lookup v with
    | some r => exact .inl (by rw [Operand.assign_of_lookup hl]; rfl)
    | none => exact .inr (by simp only [Operand.assign, hl]; rfl)
  · cases hl : a.lookup v with
    | some r =>
        rw [Operand.assign_of_lookup hl] at hv
        cases hv
        exact hrsp (h.palette hl)
    | none =>
        simp only [Operand.assign, hl] at hv
        cases hv
  · -- one of the two is a variable, and then both are nodes
    have hedge : ∀ {p q}, live.nodes.id? d = some p → live.nodes.id? x = some q →
        d = x ∨ k = .mov d x ∨ i.graph.hasEdge p q = true := fun hp hq =>
      Interference.hasEdge_of_mem_after hlive hbuild hk hd hp hq
        (hlive.mem_after_of_listed hk hnext hx hq)
    have happly : ∀ {v y p q}, live.nodes.id? (.var v) = some p → live.nodes.id? y = some q →
        i.graph.hasEdge p q = true → (Operand.var v).assign a ≠ y.assign a := by
      intro v y p q hp hq hpq
      refine h.apart ?_
      simp only [Graph.interfere, hnodes, hp, hq, hpq]
    cases hdv : d.var? with
    | some v =>
        obtain rfl := Operand.eq_var_of_var? hdv
        have hv : v ∈ f.vars :=
          Func.mem_vars.mpr ⟨k, List.mem_of_getElem? hk, Instr.mem_slots_of_defs hd⟩
        obtain ⟨p, hp⟩ := Nodes.id?_var_of_mem (hnodes ▸ hvars v hv)
        obtain ⟨r, hr, hnew⟩ := h.assign_var (hvars v hv)
        have hq : ∃ q, live.nodes.id? x = some q := by
          cases hxv : x.var? with
          | none => exact id?_of_assign hlive hrsp hxv hr (hname.symm.trans hnew)
          | some w =>
              obtain rfl := Operand.eq_var_of_var? hxv
              exact Nodes.id?_var_of_mem (hnodes ▸ hvars w (hlive.mem_vars_of_listed hx))
        obtain ⟨q, hq⟩ := hq
        rcases hedge hp hq with h | h | hpq
        · exact .inl h
        · exact .inr h
        · exact absurd hname (happly hp hq hpq)
    | none =>
        cases hxv : x.var? with
        | none =>
            rw [Operand.assign_of_var?_eq_none hdv, Operand.assign_of_var?_eq_none hxv] at hname
            exact .inl hname
        | some w =>
            obtain rfl := Operand.eq_var_of_var? hxv
            obtain ⟨q, hq⟩ := Nodes.id?_var_of_mem (hnodes ▸ hvars w (hlive.mem_vars_of_listed hx))
            obtain ⟨r, hr, hnew⟩ := h.assign_var (hvars w (hlive.mem_vars_of_listed hx))
            obtain ⟨p, hp⟩ := id?_of_assign hlive hrsp hdv hr (hname.trans hnew)
            rcases hedge hp hq with h | h | hpq
            · exact .inl h
            · exact .inr h
            · -- a coloring keeps the neighbors of a variable apart, so turn the edge around
              have hqp := (Interference.simple_build hlive hbuild).symm hpq
              exact absurd hname.symm (happly hq hp hqp)

/-- Nor does it overwrite anything that is live. -/
theorem toRenaming (hlive : Liveness.Solution c f live)
    (hbuild : Interference.build c f live = .ok i) (hrsp : Reg.rsp ∉ c.palette)
    (h : Proper c i.graph a) : Renaming c f (Live c f) (Operand.assign a) :=
  (renaming_listed hlive hbuild hrsp h).mono fun _ _ hx => hlive.listed_of_live hx

end Coloring.Proper

end Spillway
