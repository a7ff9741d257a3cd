import Spillway.Proofs.Allocator.CalleeSaved
import Spillway.Proofs.Liveness.Operands

/-!
# Liveness of an assigned function

Registers that are assigned to variables may be written more often than the variables were, and read
more often. If they come from a coloring of the interference graph, this makes no difference to what
is live: before and after every instruction the assigned function has exactly the registers live
that stand for what was live in the function, and no two of these were put in one register
(`Func.assign_liveness`).

What is live under its new name was live, since new names only make it easier to define
(`Live.of_rename`). What was live is live under its new name (`Live.rename`): if an instruction
writes this name without defining the operand then it is a move from the operand, which reads the
name again.
-/

namespace Spillway

variable {c : Convention} {f : Func} {live : Liveness} {ρ : Operand → Operand} {a : Assignment}
  {n : Nat} {x y : Operand}

/-! ## New names -/

/-- What is live is live under its new name. -/
theorem Live.rename (hρ : Renaming c f (Live c f) ρ) (h : Live c f n x) :
    Live c (f.rename ρ) n (ρ x) := by
  induction h with
  | @used n i x hi hu =>
      refine .used (Func.getElem?_rename.mpr ⟨i, hi, rfl⟩) ?_
      rw [Instr.uses_mapOperands hρ.reg]
      exact List.mem_map_of_mem hu
  | @kept n j i x hi hnext hj hdef ih =>
      have hi' : (f.rename ρ).code[n]? = some (i.mapOperands ρ) :=
        Func.getElem?_rename.mpr ⟨i, hi, rfl⟩
      by_cases hwrites : ρ x ∈ (i.mapOperands ρ).defs c
      · -- another operand with this name is defined, so it is a copy of `x`
        rw [Instr.defs_mapOperands hρ.reg] at hwrites
        obtain ⟨d, hd, hname⟩ := List.mem_map.mp hwrites
        rcases hρ.apart hi hnext hj hd hname with rfl | rfl
        · exact absurd hd hdef
        · refine .used hi' ?_
          rw [Instr.uses_mapOperands hρ.reg]
          exact List.mem_map_of_mem (List.mem_singleton.mpr rfl)
      · exact .kept hi' (Func.next_rename.mpr hnext) ih hwrites

/-- What is live in the function with new names is the new name of something live. -/
theorem Live.of_rename (hρ : ∀ r, ρ (.reg r) = .reg r) (h : Live c (f.rename ρ) n y) :
    ∃ x, ρ x = y ∧ Live c f n x := by
  induction h with
  | used hi' hu =>
      obtain ⟨i, hi, rfl⟩ := Func.getElem?_rename.mp hi'
      rw [Instr.uses_mapOperands hρ] at hu
      obtain ⟨x, hx, rfl⟩ := List.mem_map.mp hu
      exact ⟨x, rfl, .used hi hx⟩
  | kept hi' hnext hj hdef ih =>
      obtain ⟨i, hi, rfl⟩ := Func.getElem?_rename.mp hi'
      obtain ⟨x, rfl, hx⟩ := ih
      refine ⟨x, rfl, .kept hi (Func.next_rename.mp hnext) hx ?_⟩
      intro hd
      rw [Instr.defs_mapOperands hρ] at hdef
      exact hdef (List.mem_map_of_mem hd)

theorem LiveAfter.rename (hρ : Renaming c f (Live c f) ρ) (h : LiveAfter c f n x) :
    LiveAfter c (f.rename ρ) n (ρ x) := by
  obtain ⟨i, j, hi, hnext, hlive⟩ := h
  exact ⟨_, j, Func.getElem?_rename.mpr ⟨i, hi, rfl⟩, Func.next_rename.mpr hnext, hlive.rename hρ⟩

theorem LiveAfter.of_rename (hρ : ∀ r, ρ (.reg r) = .reg r) (h : LiveAfter c (f.rename ρ) n y) :
    ∃ x, ρ x = y ∧ LiveAfter c f n x := by
  obtain ⟨i', j, hi', hnext, hlive⟩ := h
  obtain ⟨i, hi, rfl⟩ := Func.getElem?_rename.mp hi'
  obtain ⟨x, rfl, hx⟩ := hlive.of_rename hρ
  exact ⟨x, rfl, i, j, hi, Func.next_rename.mp hnext, hx⟩

/-! ## Registers for variables -/

namespace Machine.Examined

variable {G : Interference} (h : Examined c f live G) (hc : c.Accepted)
  (hcolor : Coloring.color c G.graph = .ok (.colored a))

include h hc hcolor in
/-- What is tracked and live is tracked under its new name, which is a register of the palette. -/
theorem tracks_assign (hrsp : Reg.rsp ∉ c.palette) (hx : c.Tracks x)
    (hvars : ∀ v, x = .var v → v ∈ f.vars) :
    ∃ r, x.assign a = .reg r ∧ r ≠ Reg.rsp ∧ r ∈ c.palette := by
  cases x with
  | reg r => exact ⟨r, rfl, hx⟩
  | var v =>
      have hv : v ∈ G.graph.nodes.vars := by
        rw [h.vars]
        exact hvars v rfl
      obtain ⟨r, hr, hassign⟩ := (h.proper hc hcolor).assign_var hv
      exact ⟨r, hassign, fun he => hrsp (he ▸ hr), hr⟩
  | num | label | runtime | hole => cases hx

/-- An operand whose new name is tracked is tracked. -/
theorem tracks_of_assign (hx : c.Tracks (x.assign a)) : c.Tracks x := by
  cases x with
  | var v => trivial
  | reg | num | label | runtime | hole => exact hx

include h hc hcolor in
/-- If a set of operands goes to another one under the new names, so do their tracked members. -/
theorem tracks_image (hrsp : Reg.rsp ∉ c.palette) {P Q : Operand → Prop}
    (hvars : ∀ v, P (.var v) → v ∈ f.vars) (hto : ∀ x, P x → Q (x.assign a))
    (hof : ∀ y, Q y → ∃ x, x.assign a = y ∧ P x) (y : Operand) :
    c.Tracks y ∧ Q y ↔ ∃ x, (c.Tracks x ∧ P x) ∧ x.assign a = y := by
  constructor
  · rintro ⟨htracks, hy⟩
    obtain ⟨x, rfl, hx⟩ := hof y hy
    exact ⟨x, ⟨tracks_of_assign htracks, hx⟩, rfl⟩
  · rintro ⟨x, ⟨htracks, hx⟩, rfl⟩
    obtain ⟨r, hr, hpalette⟩ := h.tracks_assign hc hcolor hrsp htracks fun v hv => hvars v (hv ▸ hx)
    exact ⟨hr ▸ hpalette, hto x hx⟩

include h hc hcolor in
/-- What is live at the same place is in different registers. -/
theorem assign_injective (hx : c.Tracks x) (hy : c.Tracks y) (hxn : Live c f n x)
    (hyn : Live c f n y) (hname : x.assign a = y.assign a) : x = y := by
  refine Classical.byContradiction fun hne => ?_
  obtain ⟨p, hp⟩ := h.solution.id?_of_live hx hxn
  obtain ⟨q, hq⟩ := h.solution.id?_of_live hy hyn
  have hpq : p ≠ q := by
    intro he
    exact hne (Nodes.id?_inj hp (he ▸ hq))
  have hi := List.getElem?_eq_getElem hxn.lt_length
  have hedge : G.graph.hasEdge p q = true := by
    refine (Interference.hasEdge_build h.solution h.build).mpr ⟨hpq, .inr ⟨n, _, hi, .inl ?_⟩⟩
    exact .live (h.solution.mem_before hxn hp) (h.solution.mem_before hyn hq)
  have hnodes : G.graph.nodes = live.nodes :=
    Interference.nodes_build h.solution.size h.build
  have hproper := h.proper hc hcolor
  cases hxv : x.var? with
  | some v =>
      obtain rfl := Operand.eq_var_of_var? hxv
      refine hproper.apart ?_ hname
      simp only [Graph.interfere, hnodes, hp, hq, hedge]
  | none =>
      cases hyv : y.var? with
      | some w =>
          obtain rfl := Operand.eq_var_of_var? hyv
          refine hproper.apart ?_ hname.symm
          simp only [Graph.interfere, hnodes, hp, hq, h.simple.symm hedge]
      | none =>
          -- registers keep their names
          rw [Operand.assign_of_var?_eq_none hxv, Operand.assign_of_var?_eq_none hyv] at hname
          exact hne hname

end Machine.Examined

/-- Only registers are live in a function without variables. -/
theorem Liveness.Exact.eq_reg_of_mem (h : Exact c f live) (hf : f.vars = [])
    (hy : y ∈ live.liveBefore n ++ live.liveAfter n) : ∃ r ∈ c.palette, y = .reg r := by
  rw [List.mem_append, h.mem_liveBefore, h.mem_liveAfter, ← and_or_left] at hy
  cases y with
  | reg r => exact ⟨r, hy.1.2, rfl⟩
  | var v =>
      have hv : v ∈ f.vars := hy.2.elim Live.mem_vars LiveAfter.mem_vars
      rw [hf] at hv
      cases hv
  | num | label | runtime | hole => cases hy.1

/-- A function whose variables get the registers of a coloring has, before and after every
instruction, exactly the registers live that stand for what is live in the function; before an
instruction no two of these share a register. -/
theorem Func.assign_liveness (hc : c.check = .ok ()) (hsp : c.stackPointer = Reg.rsp)
    (hf : f.isComplete = true) (hres : f.Resolves) :
    ∃ live G r, Liveness.analyze c f = .ok live ∧ Interference.build c f live = .ok G ∧
      Coloring.color c G.graph = .ok r ∧
      ∀ a, r = .colored a → ∃ g live', f.assign a = .ok g ∧ Liveness.analyze c g = .ok live' ∧
        ∀ n,
          (∀ y, y ∈ live'.liveBefore n ↔ ∃ x ∈ live.liveBefore n, x.assign a = y) ∧
          (∀ y, y ∈ live'.liveAfter n ↔ ∃ x ∈ live.liveAfter n, x.assign a = y) ∧
          (∀ y ∈ live'.liveBefore n ++ live'.liveAfter n, ∃ r ∈ c.palette, y = .reg r) ∧
          ∀ x ∈ live.liveBefore n, ∀ y ∈ live.liveBefore n, x.assign a = y.assign a → x = y := by
  have hacc := Convention.check_eq_ok_iff.mp hc
  have hrsp : Reg.rsp ∉ c.palette := hsp ▸ hacc.stackPointer
  obtain ⟨live, G, hexamine⟩ := Machine.examine_isOk hf hrsp hres
  have hex := Machine.examine_eq_ok hexamine
  have hexact := Liveness.exact_of_analyze hex.analyze
  obtain ⟨r, hcolor⟩ := hex.color_isOk hacc
  refine ⟨live, G, r, hex.analyze, hex.build, hcolor, ?_⟩
  rintro a rfl
  have hρ := (hex.proper hacc hcolor).toRenaming hex.solution hex.build hrsp
  obtain ⟨live', hanalyze⟩ := Liveness.analyze_isOk c
    (f := f.rename (Operand.assign a)) (by rw [isComplete_rename, hf]) (resolves_rename hres)
  have hexact' := Liveness.exact_of_analyze hanalyze
  refine ⟨_, live', hex.assign_isOk hacc hcolor, hanalyze, fun n => ?_⟩
  have hbefore : ∀ y, y ∈ live'.liveBefore n ↔ ∃ x ∈ live.liveBefore n, x.assign a = y := by
    intro y
    simp only [hexact'.mem_liveBefore, hexact.mem_liveBefore]
    exact hex.tracks_image hacc hcolor hrsp (fun v hv => hv.mem_vars) (fun x hx => hx.rename hρ)
      (fun y hy => hy.of_rename hρ.reg) y
  have hafter : ∀ y, y ∈ live'.liveAfter n ↔ ∃ x ∈ live.liveAfter n, x.assign a = y := by
    intro y
    simp only [hexact'.mem_liveAfter, hexact.mem_liveAfter]
    exact hex.tracks_image hacc hcolor hrsp (fun v hv => hv.mem_vars) (fun x hx => hx.rename hρ)
      (fun y hy => hy.of_rename hρ.reg) y
  refine ⟨hbefore, hafter, ?_, ?_⟩
  · intro y hy
    refine hexact'.eq_reg_of_mem (vars_rename_assign fun v hv => ?_) hy
    exact (hex.proper hacc hcolor).total v (hex.vars ▸ hv)
  · intro x hx y hy hname
    rw [hexact.mem_liveBefore] at hx hy
    exact hex.assign_injective hacc hcolor hx.1 hy.1 hx.2 hy.2 hname

/-- A count is copied to a variable that is never used, and the shift comes after the copy. -/
def Func.copied : Func where
  name := ⟨"copied"⟩
  args := 1
  locals := 0
  code := [
    .mov (.var ⟨"y"⟩) (.reg .rcx), .mov (.var ⟨"x"⟩) (.var ⟨"y"⟩),
    .shift .shl (.reg .rax) (.var ⟨"y"⟩), .ret]

/-- Coloring gives the copy the register of the count, which is live after it. -/
theorem Func.assign_liveness_copied :
    Convention.tight.check = .ok () ∧ copied.isComplete = true ∧ copied.Resolves ∧
      ∃ live G a g live', Liveness.analyze .tight copied = .ok live ∧
        Interference.build .tight copied live = .ok G ∧
        Coloring.color .tight G.graph = .ok (.colored a) ∧
        a = [(⟨"y"⟩, .rcx), (⟨"x"⟩, .rcx)] ∧ copied.assign a = .ok g ∧
        Liveness.analyze .tight g = .ok live' ∧ .reg .rcx ∈ live'.liveAfter 1 := by
  have hc : Convention.tight.check = .ok () := toOption_eq_some.mp (by decide)
  have hf : copied.isComplete = true := by decide
  have hres : copied.Resolves := by decide
  obtain ⟨live, G, r, hlive, hG, hr, himage⟩ := assign_liveness hc rfl hf hres
  have hcolor : (Machine.examine .tight copied >>= fun e => Coloring.color .tight e.2.graph) =
      .ok (.colored [(⟨"y"⟩, .rcx), (⟨"x"⟩, .rcx)]) := toOption_eq_some.mp (by decide +kernel)
  rw [Machine.Examined.examine_eq ⟨hlive, hG⟩, ok_bind] at hcolor
  obtain ⟨g, live', hg, hlive', himage⟩ := himage _ (Except.ok.inj (hr.symm.trans hcolor))
  have hafter : (Liveness.analyze .tight copied).toOption.map (·.liveAfter 1) =
      some [.reg .rax, .var ⟨"y"⟩] := by decide +kernel
  rw [hlive] at hafter
  have hy : .var ⟨"y"⟩ ∈ live.liveAfter 1 := by
    rw [show live.liveAfter 1 = _ from Option.some.inj hafter]
    exact List.mem_cons_of_mem _ List.mem_cons_self
  refine ⟨hc, hf, hres, live, G, _, g, live', hlive, hG, hcolor, rfl, hg, hlive', ?_⟩
  exact ((himage 1).2.1 _).mpr ⟨_, hy, rfl⟩

end Spillway
