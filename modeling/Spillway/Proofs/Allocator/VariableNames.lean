import Mathlib.Data.List.Nodup
import Spillway.Proofs.Allocator.Output

/-!
# Names of variables do not matter

Analysis and coloring know a variable by its id, which is given by where the variable first appears
and not by what it is called. So a function whose variables get other names, no two of them the
same one, has the same tables and the same graph under the new names (`Liveness.analyze_renameVars`,
`Interference.build_renameVars`), and its variables make the same choices
(`Coloring.color_renameVars`). Names only order the list of spilled variables, and name the
temporaries of those: an allocation that spills nothing has the same result
(`Func.coloring_renameVars`).
-/

namespace Spillway

/-! ## New names -/

/-- The operand, with a variable under its new name. -/
def Operand.renameVar (s : Var → Var) : Operand → Operand
  | var v => var (s v)
  | x => x

/-- The function with its variables under new names. -/
def Func.renameVars (f : Func) (s : Var → Var) : Func := f.rename (Operand.renameVar s)

/-- The nodes with the variables under new names. -/
def Nodes.renameVars (u : Nodes) (s : Var → Var) : Nodes := ⟨u.regs, u.vars.map s⟩

/-- The same tables, with the variables under new names. -/
def Liveness.renameVars (live : Liveness) (s : Var → Var) : Liveness :=
  { live with nodes := live.nodes.renameVars s }

/-- The same edges, with the variables under new names. -/
def Graph.renameVars (g : Graph) (s : Var → Var) : Graph :=
  { g with nodes := g.nodes.renameVars s }

/-- No two variables of the list get the same name. -/
def Separates (s : Var → Var) (vs : List Var) : Prop :=
  ∀ v ∈ vs, ∀ w ∈ vs, s v = s w → v = w

instance (s : Var → Var) (vs : List Var) : Decidable (Separates s vs) :=
  inferInstanceAs (Decidable (∀ v ∈ vs, ∀ w ∈ vs, s v = s w → v = w))

variable {c : Convention} {f : Func} {s : Var → Var} {u : Nodes} {i : Instr} {v : Var}
  {live : Liveness} {g : Graph}

/-- New names first appear in the order of the old ones. -/
theorem eraseDups_map {vs : List Var} (hs : Separates s vs) :
    (vs.map s).eraseDups = vs.eraseDups.map s := by
  -- later occurrences of the head are dropped before going on, so the list gets shorter
  induction hn : vs.length using Nat.strongRecOn generalizing vs with
  | ind n ih =>
      cases vs with
      | nil => rfl
      | cons v vs =>
          have hfilter : (vs.map s).filter (fun w => !w == s v) =
              (vs.filter fun w => !w == v).map s := by
            rw [List.filter_map]
            congr 1
            refine List.filter_congr fun w hw => ?_
            have hiff : s w = s v ↔ w = v :=
              ⟨hs w (List.mem_cons_of_mem _ hw) v List.mem_cons_self, congrArg s⟩
            simp [hiff]
          have hle := List.length_filter_le (fun w => !w == v) vs
          rw [List.length_cons] at hn
          have hrest : Separates s (vs.filter fun w => !w == v) := by
            intro w hw w' hw'
            exact hs w (.tail _ (List.mem_filter.mp hw).1) w' (.tail _ (List.mem_filter.mp hw').1)
          rw [List.map_cons, List.eraseDups_cons, List.eraseDups_cons, hfilter,
            ih _ (by omega) hrest rfl, List.map_cons]

theorem idxOf?_map {vs : List Var} (h : ∀ w ∈ vs, s w = s v → w = v) :
    (vs.map s).idxOf? (s v) = vs.idxOf? v := by
  induction vs with
  | nil => rfl
  | cons w vs ih =>
      rw [List.forall_mem_cons] at h
      have hiff : s w = s v ↔ w = v := ⟨h.1, congrArg s⟩
      rw [List.map_cons, List.idxOf?_cons, List.idxOf?_cons, ih h.2]
      simp [hiff]

namespace Instr

theorem vars_eq_filterMap (i : Instr) : i.vars = i.slots.filterMap Operand.var? := by
  unfold vars operands
  rw [List.filterMap_filter]
  congr 1
  funext x
  cases x <;> rfl

theorem vars_renameVar (s : Var → Var) (i : Instr) :
    (i.mapOperands (Operand.renameVar s)).vars = i.vars.map s := by
  rw [vars_eq_filterMap, vars_eq_filterMap, slots_mapOperands, List.filterMap_map,
    List.map_filterMap]
  congr 1
  funext x
  cases x <;> rfl

theorem uses_renameVar (c : Convention) (s : Var → Var) (i : Instr) :
    (i.mapOperands (Operand.renameVar s)).uses c = (i.uses c).map (Operand.renameVar s) := by
  cases i <;> simp [mapOperands, uses, Operand.renameVar]

theorem defs_renameVar (c : Convention) (s : Var → Var) (i : Instr) :
    (i.mapOperands (Operand.renameVar s)).defs c = (i.defs c).map (Operand.renameVar s) := by
  cases i <;> simp [mapOperands, defs, Operand.renameVar]

end Instr

/-- The renamed function has the variables under their new names, in the same order. -/
theorem Func.vars_renameVars (hs : Separates s f.vars) :
    (f.renameVars s).vars = f.vars.map s := by
  have hall : (f.renameVars s).code.flatMap Instr.vars = (f.code.flatMap Instr.vars).map s := by
    unfold renameVars rename
    rw [List.flatMap_map, List.map_flatMap]
    congr 1
    funext i
    exact i.vars_renameVar s
  unfold vars
  rw [hall]
  refine eraseDups_map fun v hv w hw => ?_
  exact hs v (List.mem_eraseDups.mpr hv) w (List.mem_eraseDups.mpr hw)

/-! ## Nodes and effects -/

namespace Nodes

/-- Every variable in the list is one of the nodes. -/
def Covers (u : Nodes) (xs : List Operand) : Prop := ∀ v, .var v ∈ xs → v ∈ u.vars

@[simp] theorem size_renameVars (u : Nodes) (s : Var → Var) : (u.renameVars s).size = u.size := by
  simp [size, renameVars]

/-- An operand has the same id under its new name. -/
theorem id?_renameVars (hs : Separates s u.vars) {x : Operand} (hx : ∀ v, x = .var v → v ∈ u.vars) :
    (u.renameVars s).id? (x.renameVar s) = u.id? x := by
  cases x with
  | var v =>
      show ((u.vars.map s).idxOf? (s v)).map _ = (u.vars.idxOf? v).map _
      rw [idxOf?_map fun w hw => hs w hw v (hx v rfl)]
      rfl
  | _ => rfl

theorem var?_renameVars (u : Nodes) (s : Var → Var) (a : Nat) :
    (u.renameVars s).var? a = (u.var? a).map s := by
  show (if a < u.regs.length then none else (u.vars.map s)[a - u.regs.length]?) = _
  unfold var?
  split
  · rfl
  · exact List.getElem?_map

theorem setOf_renameVars (hs : Separates s u.vars) {xs : List Operand} (hxs : u.Covers xs) :
    (u.renameVars s).setOf (xs.map (Operand.renameVar s)) = u.setOf xs := by
  unfold setOf
  rw [List.filterMap_map]
  congr 1
  refine List.filterMap_congr fun x hx => ?_
  exact id?_renameVars hs fun v hv => hxs v (hv ▸ hx)

end Nodes

theorem Effect.of_renameVars (hs : Separates s u.vars) (hi : u.Covers i.slots) :
    Effect.of c (u.renameVars s) (i.mapOperands (Operand.renameVar s)) = Effect.of c u i := by
  unfold Effect.of
  rw [i.uses_renameVar, i.defs_renameVar,
    Nodes.setOf_renameVars hs fun v hv => hi v (Instr.mem_slots_of_uses hv),
    Nodes.setOf_renameVars hs fun v hv => hi v (Instr.mem_slots_of_defs hv)]

/-- The variables of an instruction are nodes of its function. -/
theorem Liveness.Solution.covers (h : Liveness.Solution c f live) (hi : i ∈ f.code) :
    live.nodes.Covers i.slots := by
  intro v hv
  rw [h.nodes]
  exact Func.mem_vars.mpr ⟨i, hi, hv⟩

/-! ## Liveness -/

namespace Flow

theorem successors_rename {ρ : Operand → Operand} {n : Nat} {js : List Nat}
    (h : successors f n i = .ok js) : successors (f.rename ρ) n (i.mapOperands ρ) = .ok js := by
  have htarget : ∀ {l m}, target f n i l = .ok m →
      target (f.rename ρ) n (i.mapOperands ρ) l = .ok m := by
    intro l m hm
    rw [target_eq_ok] at hm ⊢
    rw [labelIndex?_rename, hm]
  cases i with
  | cjump cond x y yes no =>
      obtain ⟨t, ht, h⟩ := bind_eq_ok.mp h
      obtain ⟨u, hu, h⟩ := bind_eq_ok.mp h
      exact bind_eq_ok.mpr ⟨t, htarget ht, bind_eq_ok.mpr ⟨u, htarget hu, h⟩⟩
  | goto l =>
      obtain ⟨t, ht, h⟩ := bind_eq_ok.mp h
      exact bind_eq_ok.mpr ⟨t, htarget ht, h⟩
  | _ => simpa [successors, Instr.mapOperands, Func.rename] using h

/-- New names of operands leave the control flow as it is. -/
theorem resolve_rename {ρ : Operand → Operand} {flow : Flow} (h : resolve f = .ok flow) :
    resolve (f.rename ρ) = .ok flow := by
  obtain ⟨succ, hsucc, h⟩ := bind_eq_ok.mp h
  cases h
  have hlabels : (f.rename ρ).labels = f.labels := by
    unfold Func.labels
    rw [Machine.labels_rename]
    congr 1
    funext l
    rw [labelIndex?_rename]
  have hall := mapM_eq_ok.mp hsucc
  refine bind_eq_ok.mpr ⟨succ, mapM_eq_ok.mpr ?_, by rw [hlabels]; rfl⟩
  rw [← hall]
  show ((f.code.map (Instr.mapOperands ρ)).zipIdx.map _) = _
  rw [List.zipIdx_map, List.map_map]
  refine List.map_congr_left fun ⟨i, n⟩ hin => ?_
  have hmem : successors f n i ∈ succ.map Except.ok := by
    rw [← hall]
    exact List.mem_map_of_mem hin
  obtain ⟨js, _, hjs⟩ := List.mem_map.mp hmem
  show successors (f.rename ρ) n (i.mapOperands ρ) = successors f n i
  rw [← hjs]
  exact successors_rename hjs.symm

end Flow

/-- The tables of a function are those of the renamed function. -/
theorem Liveness.analyze_renameVars (hs : Separates s f.vars) (h : analyze c f = .ok live) :
    analyze c (f.renameVars s) = .ok (live.renameVars s) := by
  have hsol := analyze_solution h
  obtain ⟨flow, hflow, h⟩ := bind_eq_ok.mp h
  obtain ⟨u, _, h⟩ := bind_eq_ok.mp h
  cases h
  have hu : u = ⟨c.palette.eraseDups, f.vars⟩ := hsol.nodes
  have hvars : u.vars = f.vars := by rw [hu]
  have hnodes : Nodes.ofFunc c (f.renameVars s) = .ok (u.renameVars s) := by
    have hcomplete : (f.renameVars s).isComplete = true :=
      (f.isComplete_rename _).trans hsol.complete
    rw [Nodes.ofFunc_of_isComplete c hcomplete, Func.vars_renameVars hs, hu]
    rfl
  have hrows : (f.renameVars s).code.map (initial c (u.renameVars s)) =
      f.code.map (initial c u) := by
    show (f.code.map _).map _ = _
    rw [List.map_map]
    refine List.map_congr_left fun i hi => ?_
    show initial c (u.renameVars s) (i.mapOperands (Operand.renameVar s)) = initial c u i
    unfold initial
    rw [Effect.of_renameVars (hvars ▸ hs) (hsol.covers hi)]
  have hresolve : Flow.resolve (f.renameVars s) = .ok flow :=
    Flow.resolve_rename (inContext_eq_ok.mp hflow)
  unfold analyze
  rw [hresolve, inContext_ok, ok_bind, hnodes, ok_bind, hrows, Nodes.size_renameVars]
  rfl

/-! ## Interference -/

/-- The same edges between other nodes. -/
theorem Graph.addEdges_nodes (g : Graph) (u : Nodes) (es : List (Nat × Nat)) :
    { g with nodes := u }.addEdges es = { g.addEdges es with nodes := u } := by
  induction es generalizing g with
  | nil => rfl
  | cons e es ih =>
      have hedge : { g with nodes := u }.addEdge e.1 e.2 =
          { g.addEdge e.1 e.2 with nodes := u } := by
        unfold addEdge
        split <;> rfl
      show ({ g with nodes := u }.addEdge e.1 e.2).addEdges es = _
      rw [hedge, ih]
      rfl

namespace Interference

section
variable (hs : Separates s u.vars) (hi : u.Covers i.slots)

include hs hi in
theorem move?_renameVars :
    move? (u.renameVars s) (i.mapOperands (Operand.renameVar s)) = move? u i := by
  cases i with
  | mov dst src =>
      have hdst : (u.renameVars s).id? (dst.renameVar s) = u.id? dst :=
        Nodes.id?_renameVars hs fun v hv => hi v (by simp [Instr.slots, hv])
      have hsrc : (u.renameVars s).id? (src.renameVar s) = u.id? src :=
        Nodes.id?_renameVars hs fun v hv => hi v (by simp [Instr.slots, hv])
      simp only [Instr.mapOperands, move?, hdst, hsrc]
  | _ => rfl

theorem shiftVar?_renameVars (s : Var → Var) (i : Instr) :
    shiftVar? (i.mapOperands (Operand.renameVar s)) = (shiftVar? i).map s := by
  cases i with
  | shift op dst src => cases src <;> rfl
  | _ => rfl

include hs in
theorem shiftEdges_renameVars (hv : v ∈ u.vars) :
    shiftEdges c (u.renameVars s) (s v) = shiftEdges c u v := by
  have hid : (u.renameVars s).id? (.var (s v)) = u.id? (.var v) :=
    Nodes.id?_renameVars (x := .var v) hs fun w hw => by cases hw; exact hv
  obtain ⟨a, ha⟩ := Nodes.id?_var_of_mem hv
  unfold shiftEdges
  rw [hid, ha]
  rfl

include hs hi in
theorem instrEdges_renameVars (row : Row) :
    instrEdges c (u.renameVars s) (i.mapOperands (Operand.renameVar s)) row =
      instrEdges c u i row := by
  unfold instrEdges defEdges
  rw [shiftVar?_renameVars, move?_renameVars hs hi]
  cases hv : shiftVar? i with
  | none => rfl
  | some v =>
      have hmem : v ∈ u.vars := hi v (mem_slots_of_shiftVar? hv)
      simp only [Option.map_some, shiftEdges_renameVars hs hmem]

end

/-- The graph of a function is that of the renamed function. -/
theorem build_renameVars {G : Interference} (hs : Separates s f.vars)
    (hlive : Liveness.Solution c f live) (h : build c f live = .ok G) :
    ∃ G', build c (f.renameVars s) (live.renameVars s) = .ok G' ∧
      G'.graph = G.graph.renameVars s := by
  have hvars : live.nodes.vars = f.vars := by rw [hlive.nodes]
  have hsize : (live.renameVars s).rows.size = (f.renameVars s).code.length := by
    show live.rows.size = (f.code.map _).length
    rw [hlive.size, List.length_map]
  rw [build_eq hlive.size] at h
  obtain ⟨edges, hedges, h⟩ := bind_eq_ok.mp h
  cases h
  have hedges' : ((f.renameVars s).code.zip (live.renameVars s).rows.toList).mapM
      (fun p => instrEdges c (live.renameVars s).nodes p.1 p.2) = .ok edges := by
    rw [mapM_eq_ok] at hedges ⊢
    rw [← hedges]
    show ((f.code.map _).zip _).map _ = _
    rw [List.zip_map_left, List.map_map]
    refine List.map_congr_left fun ⟨i, row⟩ hmem => ?_
    exact instrEdges_renameVars (hvars ▸ hs) (hlive.covers (List.of_mem_zip hmem).1) row
  rw [build_eq hsize, hedges', ok_bind]
  refine ⟨_, rfl, ?_⟩
  -- the graph starts without edges, as many nodes as there are
  have hempty : Graph.empty (live.nodes.renameVars s) =
      { Graph.empty live.nodes with nodes := live.nodes.renameVars s } := by
    unfold Graph.empty
    rw [Nodes.size_renameVars]
  show (Graph.empty (live.nodes.renameVars s)).addEdges _ = Graph.renameVars (Graph.addEdges _ _) s
  rw [hempty, Graph.addEdges_nodes]
  unfold Graph.renameVars
  rw [Graph.nodes_addEdges]
  rfl

end Interference

/-! ## Coloring -/

namespace Coloring

/-- The choices with the variables under new names. -/
def Choices.renameVars (ch : Choices) (s : Var → Var) : Choices :=
  { ch with spills := ch.spills.map s }

theorem start_renameVars (c : Convention) (u : Nodes) (s : Var → Var) :
    start c (u.renameVars s) = (start c u).renameVars s := by
  unfold start Choices.renameVars Nodes.renameVars
  rw [List.map_map]
  rfl

/-- A turn depends on the colors of the neighbors and on no name. -/
theorem choose_renameVars (k : Nat) (g : Graph) (s : Var → Var) (ch : Choices) (a : Nat) :
    choose k (g.renameVars s) (ch.renameVars s) a =
      (choose k g ch a).renameVars s := by
  have hvar : (g.renameVars s).nodes.var? a = (g.nodes.var? a).map s :=
    Nodes.var?_renameVars g.nodes s a
  unfold choose
  rw [hvar]
  cases g.nodes.var? a with
  | none => rfl
  | some v =>
      show (if k ≤ (blocked g ch a).size then _ else _) = Choices.renameVars (if _ then _ else _) s
      split <;> rfl

theorem foldl_choose_renameVars (k : Nat) (g : Graph) (s : Var → Var) (turns : List Nat)
    (ch : Choices) :
    turns.foldl (choose k (g.renameVars s)) (ch.renameVars s) =
      (turns.foldl (choose k g) ch).renameVars s := by
  induction turns generalizing ch with
  | nil => rfl
  | cons a turns ih => rw [List.foldl_cons, choose_renameVars, ih, List.foldl_cons]

/-- The colorings of two graphs spill the same variables, and otherwise give a variable the same
register, each under its name in that graph. -/
inductive Renamed (s : Var → Var) (vs : List Var) : Coloring → Coloring → Prop
  | colored {a a' : Assignment} : (∀ v ∈ vs, a'.lookup (s v) = a.lookup v) →
      Renamed s vs (.colored a) (.colored a')
  | spilled {xs ys : List Var} : ys.Perm (xs.map s) → Renamed s vs (.spilled xs) (.spilled ys)

/-- Coloring goes by ids. -/
theorem color_renameVars (hs : Separates s g.nodes.vars) (hregs : g.nodes.regs = c.palette)
    (hvars : g.nodes.vars.Nodup) :
    ∃ r r', color c g = .ok r ∧ color c (g.renameVars s) = .ok r' ∧
      Renamed s g.nodes.vars r r' := by
  have hsize : ¬ g.nodes.regs.length ≠ c.size := fun hne => hne (congrArg List.length hregs)
  have horder : order (g.renameVars s) = order g := rfl
  have hstart : start c (g.renameVars s).nodes = (start c g.nodes).renameVars s :=
    start_renameVars c g.nodes s
  unfold color
  rw [if_neg hsize, if_neg (by exact hsize)]
  refine ⟨_, _, rfl, rfl, ?_⟩
  rw [horder, hstart, foldl_choose_renameVars]
  generalize (turns c.size (order g)).foldl (choose c.size g) (start c g.nodes) = ch
  have hempty : (ch.renameVars s).spills.isEmpty = ch.spills.isEmpty := by
    simp [Choices.renameVars]
  rw [hempty]
  split
  · refine .colored fun v hv => ?_
    -- the register of a variable is that of its id
    have hnodup : (g.renameVars s).nodes.vars.Nodup := List.Nodup.map_on hs hvars
    have hid : (g.renameVars s).nodes.id? (.var (s v)) = g.nodes.id? (.var v) :=
      Nodes.id?_renameVars (x := .var v) hs fun w hw => by cases hw; exact hv
    rw [lookup_assignment hnodup, lookup_assignment hvars, hid]
    rfl
  · -- names order the spilled variables, and nothing else
    refine .spilled ?_
    calc (Interference.byName (ch.spills.map s)).Perm (ch.spills.map s) := ordered_perm _ _
      _ |>.Perm ((Interference.byName ch.spills).map s) := ((ordered_perm _ _).map s).symm

end Coloring

/-! ## Allocation -/

namespace Func

/-- Registers for the old names and for the new ones give the same code. -/
theorem rename_assign_renameVars {a a' : Assignment}
    (h : ∀ v ∈ f.vars, a'.lookup (s v) = a.lookup v) (ha : f.Assigned a) :
    (f.renameVars s).rename (Operand.assign a') = f.rename (Operand.assign a) := by
  have hcode : (f.renameVars s).code.map (Instr.mapOperands (Operand.assign a')) =
      f.code.map (Instr.mapOperands (Operand.assign a)) := by
    show (f.code.map _).map _ = _
    rw [List.map_map]
    refine List.map_congr_left fun i hi => ?_
    refine (Instr.mapOperands_comp _ _ i).trans (Instr.mapOperands_congr fun x hx => ?_)
    cases x with
    | var v =>
        have hv : v ∈ f.vars := mem_vars.mpr ⟨i, hi, hx⟩
        obtain ⟨r, hr⟩ := ha v hv
        rw [Operand.assign_of_lookup hr]
        exact Operand.assign_of_lookup ((h v hv).trans hr)
    | _ => rfl
  show ({ f with code := _ } : Func) = { f with code := _ }
  rw [hcode]

/-- An allocation that spills nothing colors the function itself. -/
theorem colored_of_allocate {r : Func} {p : Placement} (h : f.allocate c = .ok r)
    (hp : f.placement? c = some p) (hspilled : p.spilled = []) :
    ∃ live G, Machine.Examined c f live G ∧
      Coloring.color c G.graph = .ok (.colored p.registers) ∧
      r = f.rename (Operand.assign p.registers) := by
  obtain ⟨p', F, live, G, hp', _, _, hF, hex, hcolor, hr⟩ := Machine.allocate_eq_ok h
  obtain rfl : p' = p := Option.some.inj (hp'.symm.trans hp)
  rw [hspilled] at hF
  cases hF
  exact ⟨live, G, hex, hcolor, hr⟩

/-- The names of the variables of a function do not influence how it is colored. Under new names
its tables, its graph and the number of passes are the same, coloring spills the same variables, or
gives each the same register if it spills none; and an allocation that spills nothing has the same
result. -/
theorem coloring_renameVars (hc : c.check = .ok ()) (hsp : c.stackPointer = Reg.rsp)
    (hf : f.isComplete = true) (hres : f.Resolves) (hs : Separates s f.vars) :
    ∃ live G G' r r',
      Liveness.analyze c f = .ok live ∧
      Liveness.analyze c (f.renameVars s) = .ok (live.renameVars s) ∧
      Interference.build c f live = .ok G ∧
      Interference.build c (f.renameVars s) (live.renameVars s) = .ok G' ∧
      G'.graph = G.graph.renameVars s ∧
      Coloring.color c G.graph = .ok r ∧ Coloring.color c G'.graph = .ok r' ∧
      r'.spills.Perm (r.spills.map s) ∧
      (r.spills = [] → ∃ a a', r = .colored a ∧ r' = .colored a' ∧
        ∀ v ∈ f.vars, ∃ x, a.lookup v = some x ∧ a'.lookup (s v) = some x) ∧
      ∀ p g, f.check = .ok () → (f.renameVars s).check = .ok () → f.allocate c = .ok g →
        f.placement? c = some p → p.spilled = [] → (f.renameVars s).allocate c = .ok g := by
  have hacc := Convention.check_eq_ok_iff.mp hc
  obtain ⟨live, G, hexamine⟩ := Machine.examine_isOk hf (hsp ▸ hacc.stackPointer) hres
  have hex := Machine.examine_eq_ok hexamine
  have hanalyze := Liveness.analyze_renameVars hs hex.analyze
  obtain ⟨G', hbuild, hgraph⟩ := Interference.build_renameVars hs hex.solution hex.build
  have hvars : G.graph.nodes.vars = f.vars := hex.vars
  have hnodup : G.graph.nodes.vars.Nodup := hvars ▸ f.nodup_vars
  obtain ⟨r, r', hr, hr', hrenamed⟩ :=
    Coloring.color_renameVars (hvars ▸ hs) (hex.regs hacc) hnodup
  rw [← hgraph] at hr'
  refine ⟨live, G, G', r, r', hex.analyze, hanalyze, hex.build, hbuild, hgraph, hr, hr', ?_, ?_, ?_⟩
  · cases hrenamed with
    | colored _ => exact .nil
    | spilled hperm => exact hperm
  · intro hnil
    cases hrenamed with
    | @colored a a' hlookup =>
        refine ⟨a, a', rfl, rfl, fun v hv => ?_⟩
        obtain ⟨x, hx⟩ := (hex.proper hacc hr).total v (hvars ▸ hv)
        exact ⟨x, hx, (hlookup v (hvars ▸ hv)).trans hx⟩
    | spilled _ => exact absurd hnil (hex.spills hr).1
  · -- both allocations end in their first iteration, with the same registers
    intro p g _ hcheck hg hp hspilled
    obtain ⟨live₁, G₁, hex₁, hcolor, rfl⟩ := colored_of_allocate hg hp hspilled
    obtain rfl : live₁ = live := Except.ok.inj (hex₁.analyze.symm.trans hex.analyze)
    obtain rfl : G₁ = G := Except.ok.inj (hex₁.build.symm.trans hex.build)
    obtain rfl : r = .colored p.registers := Except.ok.inj (hr.symm.trans hcolor)
    cases hrenamed with
    | @colored _ a' hlookup =>
        have hassigned : f.Assigned p.registers := fun v hv =>
          (hex.proper hacc hr).total v (hvars ▸ hv)
        have hexamine' := Machine.Examined.examine_eq ⟨hanalyze, hbuild⟩
        rw [allocate_of_colored hc hcheck hexamine' hr',
          rename_assign_renameVars (hvars ▸ hlookup) hassigned]

/-- A loop that shifts by a variable, with no more variables than two registers can hold. -/
def scaling : Func where
  name := ⟨"scaling"⟩
  args := 1
  locals := 0
  code := [
    .mov (.var ⟨"y"⟩) (.reg .rcx), .mov (.var ⟨"x"⟩) (.num 3), .label ⟨"again"⟩,
    .shift .shl (.var ⟨"x"⟩) (.var ⟨"y"⟩),
    .cjump .lt (.var ⟨"x"⟩) (.num 64) ⟨"again"⟩ ⟨"out"⟩, .label ⟨"out"⟩,
    .mov (.reg .rax) (.var ⟨"x"⟩), .ret]

/-- Two variables exchange their names. -/
def exchange (v : Var) : Var :=
  if v = ⟨"x"⟩ then ⟨"y"⟩ else if v = ⟨"y"⟩ then ⟨"x"⟩ else v

/-- With the names exchanged, one function is allocated to the same registers, and of the other one
the variable that is now called `x` is spilled. -/
theorem coloring_renameVars_exchange :
    Separates exchange scaling.vars ∧ Separates exchange pressed.vars ∧
      (∃ g, scaling.allocate .tight = .ok g ∧
        (scaling.renameVars exchange).allocate .tight = .ok g) ∧
      ∃ live G r, Liveness.analyze .tight (pressed.renameVars exchange) = .ok live ∧
        Interference.build .tight (pressed.renameVars exchange) live = .ok G ∧
        Coloring.color .tight G.graph = .ok r ∧ r.spills = [⟨"x"⟩] := by
  have hc : Convention.tight.check = .ok () := by decide
  have hscaling : Separates exchange scaling.vars := by decide
  have hpressed : Separates exchange pressed.vars := by decide
  refine ⟨hscaling, hpressed, ?_, ?_⟩
  · have hg : (scaling.allocate .tight).isOk = true := by decide +kernel
    have hp : (scaling.placement? .tight).map Placement.spilled = some [] := by decide +kernel
    have hres : scaling.Resolves := by decide
    obtain ⟨p, hp, hspilled⟩ := Option.map_eq_some_iff.mp hp
    obtain ⟨_, _, _, _, _, _, _, _, _, _, _, _, _, _, hsame⟩ :=
      coloring_renameVars hc rfl (by decide) hres hscaling
    cases hall : scaling.allocate .tight with
    | error e =>
        rw [hall] at hg
        cases hg
    | ok g => exact ⟨g, rfl, hsame p g (by decide) (by decide) hall hp hspilled⟩
  · have hspills : (Machine.examine .tight pressed >>= fun e =>
        Coloring.color .tight e.2.graph).toOption.map Coloring.spills = some [⟨"y"⟩] := by
      decide +kernel
    have hres : pressed.Resolves := by decide
    obtain ⟨live, G, G', r, r', hlive, hlive', hG, hG', _, hr, hr', hperm, _⟩ :=
      coloring_renameVars hc rfl (by decide) hres hpressed
    rw [Machine.Examined.examine_eq ⟨hlive, hG⟩, ok_bind, hr] at hspills
    have hspills : r.spills = [⟨"y"⟩] := Option.some.inj hspills
    rw [hspills] at hperm
    exact ⟨_, G', r', hlive', hG', hr', List.perm_singleton.mp hperm⟩

end Func

end Spillway
