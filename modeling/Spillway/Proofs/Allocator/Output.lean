import Spillway.Proofs.Allocator.Behaviour
import Spillway.Proofs.Allocator.Outcome

/-!
# What an allocation returns

An allocated function has no variables (`Func.allocate_vars`), its jumps have their targets
(`Func.allocate_resolves`), it is well formed if shift counts are held in `rcx`
(`Func.allocate_check`), and all its labels are labels of the function (`Func.allocate_hasLabel`).
Reading its stack arguments as loads keeps all of this.

A function that has no variables is returned as it is (`Func.allocate_of_vars_eq_nil`).
-/

namespace Spillway

variable {c : Convention} {f r F : Func} {a : Assignment} {i j : Instr} {l : Label}

/-! ## Labels -/

theorem Instr.hasLabel_raiseSlots : i.raiseSlots.HasLabel l ↔ i.HasLabel l := by
  cases i <;> rfl

/-- Replacing variables by operands that are no labels adds none. -/
theorem Instr.hasLabel_of_mapOperands {ρ : Operand → Operand}
    (hρ : ∀ x, ρ x = .label l → x = .label l) (h : (i.mapOperands ρ).HasLabel l) :
    i.HasLabel l := by
  rcases h with hslot | hrest
  · rw [slots_mapOperands] at hslot
    obtain ⟨x, hx, hxl⟩ := List.mem_map.mp hslot
    exact .inl (hρ x hxl ▸ hx)
  · refine .inr ?_
    cases i <;> exact hrest

theorem Spill.Made.hasLabel {v : Var} {used : List Var} (h : Made v used i j)
    (hl : j.HasLabel l) : i.HasLabel l := by
  cases h with
  | plain _ => exact Instr.hasLabel_raiseSlots.mp hl
  | slot hfold =>
      -- a folded instruction has one operand of the instruction and the stack pointer
      cases hfold <;> simpa [Instr.HasLabel, Instr.slots, Instr.targets, Instr.label?] using hl
  | @work t _ _ _ =>
      refine Instr.hasLabel_raiseSlots.mp (Instr.hasLabel_of_mapOperands (fun x hx => ?_) hl)
      cases x with
      | var w =>
          unfold Operand.rename at hx
          split at hx <;> cases hx
      | _ => exact hx
  | load _ _ _ => simp [Instr.HasLabel, Instr.slots, Instr.targets, Instr.label?] at hl
  | store _ _ _ => simp [Instr.HasLabel, Instr.slots, Instr.targets, Instr.label?] at hl

theorem Machine.hasLabel_of_spillAll {vs : List Var} (h : spillAll f vs = .ok F)
    (hl : F.HasLabel l) : f.HasLabel l := by
  rcases hl with hname | ⟨j, hj, hl⟩
  · exact .inl ((spilledTo_of_spillAll h).name ▸ hname)
  · refine forall_of_spillAll (P := fun i => i.HasLabel l → f.HasLabel l) ?_ h ?_ j hj hl
    · exact fun hmade hi hj => hi (hmade.hasLabel hj)
    · exact fun i hi hl => .inr ⟨i, hi, hl⟩

theorem Func.hasLabel_of_rename_assign (hl : (f.rename (Operand.assign a)).HasLabel l) :
    f.HasLabel l := by
  rcases hl with hl | ⟨j, hj, hl⟩
  · exact .inl hl
  · obtain ⟨i, hi, rfl⟩ := List.mem_map.mp hj
    refine .inr ⟨i, hi, Instr.hasLabel_of_mapOperands (fun x hx => ?_) hl⟩
    cases hv : x.var? with
    | none => rwa [Operand.assign_of_var?_eq_none hv] at hx
    | some v =>
        obtain rfl := Operand.eq_var_of_var? hv
        cases hlookup : a.lookup v <;> simp [Operand.assign, hlookup] at hx

/-! ## Registers -/

namespace Coloring.Proper

variable {live : Liveness} {g : Interference}

/-- Registers of an accepted convention can be written. -/
theorem replaces (h : Proper c g.graph a) (hc : c.Accepted) (hrsp : Reg.rsp ∉ c.palette) :
    Operand.Replaces (Operand.assign a) := by
  refine ⟨fun x hx => Operand.assign_of_var?_eq_none hx, fun v hv => ?_⟩
  cases hl : a.lookup v with
  | some r =>
      rw [Operand.assign_of_lookup hl]
      have hr := h.palette hl
      exact ⟨fun hsp => hrsp (hsp ▸ hr), hc.machine r hr⟩
  | none =>
      simp only [Operand.assign, hl]
      exact hv

/-- A variable that counts a shift has the register for shift counts. -/
theorem assign_shiftVar (h : Proper c g.graph a) (hlive : Liveness.Solution c F live)
    (hbuild : Interference.build c F live = .ok g) (hrsp : Reg.rsp ∉ c.palette) {v : Var}
    (hi : i ∈ F.code) (hshift : Interference.shiftVar? i = some v) :
    (Operand.var v).assign a = .reg c.shiftCount := by
  have hnodes := Interference.nodes_build hlive.size hbuild
  have hv : v ∈ g.graph.nodes.vars := by
    rw [hnodes, hlive.nodes]
    exact Func.mem_vars.mpr ⟨i, hi, Interference.mem_slots_of_shiftVar? hshift⟩
  obtain ⟨r, hr, hassign⟩ := h.assign_var hv
  rw [hassign]
  refine congrArg Operand.reg (Classical.byContradiction fun hne => ?_)
  -- any other register is a neighbor of the variable
  obtain ⟨n, hn⟩ := List.getElem?_of_mem hi
  obtain ⟨p, hp⟩ := Nodes.id?_var_of_mem (hnodes ▸ hv)
  obtain ⟨q, hq⟩ : ∃ q, live.nodes.id? (.reg r) = some q := by
    refine Nodes.id?_reg_of_mem (fun hsp => hrsp (hsp ▸ hr)) ?_
    rw [hlive.nodes]
    exact List.mem_eraseDups.mpr hr
  have hpq : p ≠ q := by
    intro hpq
    have hinj := Nodes.id?_inj hp (hpq ▸ hq)
    cases hinj
  have hedge : g.graph.hasEdge p q = true :=
    (Interference.hasEdge_build hlive hbuild).mpr
      ⟨hpq, .inr ⟨n, i, hn, .inl (.shift hshift hp hr hne hq)⟩⟩
  have hapart : (Operand.var v).assign a ≠ (Operand.reg r).assign a := by
    refine h.apart ?_
    simp only [Graph.interfere, hnodes, hp, hq, hedge]
  exact hapart hassign

end Coloring.Proper

/-- Registers of a proper coloring keep a function well formed, if variables that count shifts are
held in `rcx`. -/
theorem Machine.Examined.check_assign {live : Liveness} {g : Interference}
    (h : Examined c F live g) (hc : c.Accepted) (hrsp : Reg.rsp ∉ c.palette)
    (hshift : ∀ i ∈ F.code, ∀ v, Interference.shiftVar? i = some v → c.shiftCount = Reg.rcx)
    (hcolor : Coloring.color c g.graph = .ok (.colored a)) (hF : F.check = .ok ()) :
    (F.rename (Operand.assign a)).check = .ok () := by
  have hproper := h.proper hc hcolor
  rw [Func.check_eq_ok_iff] at hF ⊢
  intro j hj
  obtain ⟨i, hi, rfl⟩ := List.mem_map.mp hj
  refine (hF i hi).mapOperands (hproper.replaces hc hrsp) fun v hv => ?_
  rw [hproper.assign_shiftVar h.solution h.build hrsp hi hv, hshift i hi v hv]
  exact rfl

/-- A coloring that can be assigned is the last step. -/
theorem Machine.step_of_colored {m : Machine} {g : Interference} (hp : m.phase = .coloring)
    (hg : m.interference = some g) (hcolor : Coloring.color c g.graph = .ok (.colored a))
    (hassign : m.func.assign a = .ok f) :
    m.step c = ({ m with coloring := some (.colored a), func := f, phase := .done }, none) := by
  have hcolor' : inContext .coloring (Coloring.color c g.graph) = .ok (.colored a) :=
    inContext_eq_ok.mpr hcolor
  unfold step color
  simp only [hp, hg, hcolor', hassign]

/-! ## Allocated functions -/

namespace Func

theorem resolves_rename {ρ : Operand → Operand} (h : f.Resolves) : (f.rename ρ).Resolves := by
  intro j hj l hl
  obtain ⟨i, hi, rfl⟩ := List.mem_map.mp hj
  have hl : l ∈ i.targets := by cases i <;> exact hl
  exact List.mem_map.mpr ⟨.label l, h i hi l hl, rfl⟩

theorem allocate_vars (h : f.allocate c = .ok r) : r.vars = [] := by
  obtain ⟨p, F, live, i, _, hc, _, _, hex, hcolor, rfl⟩ := Machine.allocate_eq_ok h
  refine vars_rename_assign fun v hv => ?_
  exact (hex.proper (Convention.check_eq_ok_iff.mp hc) hcolor).total v (hex.vars ▸ hv)

theorem allocate_resolves (h : f.allocate c = .ok r) : r.Resolves := by
  obtain ⟨p, F, live, i, _, _, _, _, hex, _, rfl⟩ := Machine.allocate_eq_ok h
  exact resolves_rename (Flow.resolve_eq_ok_iff.mp ⟨_, hex.solution.flow⟩)

theorem allocate_check (hsp : c.stackPointer = Reg.rsp) (hshift : c.shiftCount = Reg.rcx)
    (h : f.allocate c = .ok r) : r.check = .ok () := by
  obtain ⟨p, F, live, i, _, hc, hf, hF, hex, hcolor, rfl⟩ := Machine.allocate_eq_ok h
  have hacc := Convention.check_eq_ok_iff.mp hc
  exact hex.check_assign hacc (hsp ▸ hacc.stackPointer) (fun _ _ _ _ => hshift) hcolor
    ((Machine.spilledTo_of_spillAll hF).check hf)

theorem allocate_hasLabel (h : f.allocate c = .ok r) (hl : r.HasLabel l) : f.HasLabel l := by
  obtain ⟨p, F, live, i, _, _, _, hF, _, _, rfl⟩ := Machine.allocate_eq_ok h
  exact Machine.hasLabel_of_spillAll hF (hasLabel_of_rename_assign hl)

theorem allocate_name (h : f.allocate c = .ok r) : r.name = f.name := by
  obtain ⟨p, F, live, i, _, _, _, hF, _, _, rfl⟩ := Machine.allocate_eq_ok h
  exact (Machine.spilledTo_of_spillAll hF).name

/-- Nothing changes where there is no variable. -/
theorem rename_assign_of_vars_eq_nil (hf : f.vars = []) : f.rename (Operand.assign a) = f := by
  have hcode : ∀ i ∈ f.code, i.mapOperands (Operand.assign a) = i := by
    intro i hi
    refine (Instr.mapOperands_congr fun x hx => ?_).trans (Instr.mapOperands_id i)
    refine Operand.assign_of_var?_eq_none (Option.eq_none_iff_forall_ne_some.mpr fun v hv => ?_)
    obtain rfl := Operand.eq_var_of_var? hv
    have hmem : v ∈ f.vars := mem_vars.mpr ⟨i, hi, hx⟩
    rw [hf] at hmem
    cases hmem
  unfold rename
  rw [List.map_congr_left hcode, List.map_id']

open Machine in
/-- A function that can be colored is allocated in one iteration. -/
theorem allocate_of_colored {live : Liveness} {g : Interference} (hc : c.check = .ok ())
    (hcheck : f.check = .ok ()) (hexamine : examine c f = .ok (live, g))
    (hcolor : Coloring.color c g.graph = .ok (.colored a)) :
    f.allocate c = .ok (f.rename (Operand.assign a)) := by
  have hacc := Convention.check_eq_ok_iff.mp hc
  have hassign := (examine_eq_ok hexamine).assign_isOk hacc hcolor
  have hanalyze := analyze_initial hc hcheck
  rw [hexamine] at hanalyze
  rw [allocate_eq_run (isComplete_of_check hcheck),
    run_of_step_ok (initial_ne_done f) hanalyze]
  rw [run_of_step_ok (by simp) (step_of_colored rfl rfl hcolor hassign), run_of_done rfl]

open Machine in
/-- The allocation of a function without variables ends after one iteration and changes nothing. -/
theorem allocate_of_vars_eq_nil (hc : c.check = .ok ()) (hsp : c.stackPointer = Reg.rsp)
    (hcheck : f.check = .ok ()) (hres : f.Resolves) (hvars : f.vars = []) :
    f.allocate c = .ok f := by
  have hacc := Convention.check_eq_ok_iff.mp hc
  obtain ⟨live, g, hexamine⟩ :=
    examine_isOk (isComplete_of_check hcheck) (hsp ▸ hacc.stackPointer) hres
  have hex := examine_eq_ok hexamine
  obtain ⟨a, hcolor⟩ : ∃ a, Coloring.color c g.graph = .ok (.colored a) := by
    obtain ⟨result, hresult⟩ := hex.color_isOk hacc
    cases result with
    | colored a => exact ⟨a, hresult⟩
    | spilled vs =>
        obtain ⟨hne, hmem⟩ := hex.spills hresult
        rw [hvars] at hmem
        exact absurd (List.eq_nil_iff_forall_not_mem.mpr fun v hv => by cases hmem v hv) hne
  rw [allocate_of_colored hc hcheck hexamine hcolor, rename_assign_of_vars_eq_nil hvars]

/-! ## Stack arguments -/

/-- No instruction reads a stack argument. -/
def Lowered (f : Func) : Prop := ∀ i ∈ f.code, ∀ dst off, i ≠ .stackArg dst off

theorem lowered_lowerStackArgs (f : Func) : f.lowerStackArgs.Lowered := by
  intro j hj dst off
  obtain ⟨i, _, rfl⟩ := List.mem_map.mp hj
  cases i <;> simp [Instr.lowerStackArg]

theorem lowerStackArgs_of_lowered (h : f.Lowered) : f.lowerStackArgs = f := by
  have hcode : ∀ i ∈ f.code, i.lowerStackArg f.locals = i := by
    intro i hi
    cases i with
    | stackArg dst off => exact absurd rfl (h _ hi dst off)
    | _ => rfl
  unfold lowerStackArgs
  rw [List.map_congr_left hcode, List.map_id']

theorem check_lowerStackArgs (h : f.check = .ok ()) : f.lowerStackArgs.check = .ok () := by
  rw [check_eq_ok_iff] at h ⊢
  intro j hj
  obtain ⟨i, hi, rfl⟩ := List.mem_map.mp hj
  have hwf := h i hi
  cases i with
  | stackArg dst off => exact ⟨hwf, .inl rfl⟩
  | _ => exact hwf

theorem resolves_lowerStackArgs (h : f.Resolves) : f.lowerStackArgs.Resolves := by
  intro j hj l hl
  obtain ⟨i, hi, rfl⟩ := List.mem_map.mp hj
  have hl : l ∈ i.targets := by cases i <;> exact hl
  exact List.mem_map.mpr ⟨.label l, h i hi l hl, rfl⟩

theorem hasLabel_of_lowerStackArgs (h : f.lowerStackArgs.HasLabel l) : f.HasLabel l := by
  rcases h with h | ⟨j, hj, h⟩
  · exact .inl h
  · obtain ⟨i, hi, rfl⟩ := List.mem_map.mp hj
    refine .inr ⟨i, hi, ?_⟩
    cases i with
    | stackArg dst off =>
        simpa [Instr.lowerStackArg, Instr.HasLabel, Instr.slots, Instr.targets, Instr.label?]
          using h
    | _ => exact h

end Func

end Spillway
