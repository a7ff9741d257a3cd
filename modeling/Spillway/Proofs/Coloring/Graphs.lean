import Mathlib.Data.List.Basic
import Spillway.Proofs.Coloring

/-!
# Colorings of any graph

Coloring asks little of a graph. Any edges may join the nodes of a function, its registers need not
be joined to each other, and they may even be those of another palette, if only they are as many.

* Without spills, exactly the variables get registers, and the two ends of every edge have different
  ones (`color_addEdges_apart`).
* Only variables with as many neighbors as there are colors are spilled, and a color is only passed
  over because a neighbor has it (`color_addEdges_justified`).

The second statement is about the end of the coloring, while a choice is made when only some of the
neighbors have theirs. What carries it is that no choice is ever revised: a color that was taken
when a node had its turn stays taken (`Justified`).
-/

namespace Spillway

/-- The register of a node: a register has itself, and a variable the one it is given. -/
def Nodes.register? (u : Nodes) (a : Assignment) (n : Nat) : Option Reg :=
  (u.operand? n).bind fun x => (x.assign a).reg?

theorem Nodes.exists_operand? {u : Nodes} {n : Nat} (h : n < u.size) :
    ∃ x, u.operand? n = some x := by
  rw [operand?_eq]
  exact ⟨_, List.getElem?_eq_getElem (by simpa [operands, size] using h)⟩

theorem Nodes.exists_var? {u : Nodes} {n : Nat} (hge : u.regs.length ≤ n) (hlt : n < u.size) :
    ∃ v, u.var? n = some v := by
  unfold size at hlt
  rw [var?, if_neg (Nat.not_lt_of_le hge)]
  exact ⟨_, List.getElem?_eq_getElem (by omega)⟩

theorem Nodes.register?_of_lt {u : Nodes} (a : Assignment) {n : Nat} (h : n < u.regs.length) :
    u.register? a n = u.regs[n]? := by
  rw [register?, operand?, if_pos h, List.getElem?_eq_getElem h]
  rfl

theorem BitSet.size_ofList_le (ks : List Nat) : (BitSet.ofList ks).size ≤ ks.length := by
  rw [← length_toList]
  apply (nodup_toList _).length_le_of_subset
  intro k hk
  exact mem_ofList.mp (mem_toList.mp hk)

/-- Sorting different variables by name puts them in strictly increasing order. -/
theorem Interference.pairwise_byName {vs : List Var} (h : vs.Nodup) :
    (byName vs).Pairwise fun v w => v.name < w.name := by
  have hle : (byName vs).Pairwise fun v w => decide (v.name ≤ w.name) = true := by
    refine pairwise_ordered (fun v w => ?_) (fun v w x hvw hwx => ?_) vs
    · simpa using String.le_total v.name w.name
    · simp only [decide_eq_true_eq] at hvw hwx ⊢
      exact String.le_trans hvw hwx
  have hne : (byName vs).Pairwise (· ≠ ·) := (ordered_perm _ vs).nodup_iff.mpr h
  refine (hle.and hne).imp ?_
  rintro ⟨v⟩ ⟨w⟩ ⟨hvw, hdiff⟩
  show v < w
  refine Classical.byContradiction fun hnot => hdiff ?_
  exact congrArg Var.mk (String.le_antisymm (of_decide_eq_true hvw) (String.not_lt.mp hnot))

namespace Coloring

variable {c : Convention} {g : Graph} {seen : List Nat} {ch ch' : Choices} {a : Assignment}
  {m n : Nat}

/-! ## Choices that are justified -/

/-- At most as many colors are taken as there are neighbors. -/
theorem size_blocked_le (g : Graph) (ch : Choices) (n : Nat) :
    (blocked g ch n).size ≤ g.degree n := by
  calc (blocked g ch n).size
    _ ≤ ((g.neighbors n).toList.filterMap fun b => ch.colors.getD b none).length :=
        BitSet.size_ofList_le _
    _ ≤ (g.neighbors n).toList.length := List.length_filterMap_le _ _
    _ = g.degree n := BitSet.length_toList _

/-- The choices made so far had to be made. -/
structure Justified (c : Convention) (g : Graph) (seen : List Nat) (ch : Choices) : Prop where
  /-- A spilled variable has had its turn, and has as many neighbors as there are colors. -/
  crowded : ∀ v ∈ ch.spills, ∃ n ∈ seen, g.nodes.var? n = some v ∧ c.size ≤ g.degree n
  /-- No variable is spilled twice. -/
  nodup : ch.spills.Nodup
  /-- All colors before that of a variable are taken by neighbors. -/
  lowest : ∀ n x, g.nodes.regs.length ≤ n → ch.colors.getD n none = some x →
    ∀ y < x, y ∈ blocked g ch n

namespace Justified

theorem start (c : Convention) (g : Graph) : Justified c g [] (start c g.nodes) := by
  refine ⟨?_, .nil, ?_⟩
  · intro v hv
    cases hv
  · intro n x hn hx
    rw [(Valid.start c g).waiting n hn List.not_mem_nil] at hx
    cases hx

/-- A variable that finds all colors taken is spilled for the first time. -/
theorem spill {v : Var} (h : Justified c g seen ch) (hvars : g.nodes.vars.Nodup) (hn : n ∉ seen)
    (hv : g.nodes.var? n = some v) (hfull : c.size ≤ (blocked g ch n).size) :
    Justified c g (n :: seen) { ch with spills := v :: ch.spills } := by
  refine ⟨?_, ?_, h.lowest⟩
  · intro w hw
    rcases List.mem_cons.mp hw with rfl | hw
    · exact ⟨n, List.mem_cons_self, hv, Nat.le_trans hfull (size_blocked_le g ch n)⟩
    · obtain ⟨m, hm, hrest⟩ := h.crowded w hw
      exact ⟨m, List.mem_cons_of_mem n hm, hrest⟩
  · rw [List.nodup_cons]
    refine ⟨?_, h.nodup⟩
    intro hmem
    obtain ⟨m, hm, hmv, _⟩ := h.crowded v hmem
    have hmn : m = n := Option.some.inj
      ((Nodes.id?_of_var? hvars hmv).symm.trans (Nodes.id?_of_var? hvars hv))
    exact hn (hmn ▸ hm)

/-- A node that takes a color takes none from a neighbor. -/
theorem paint {v : Var} {x : Nat} (h : Justified c g seen ch) (hvalid : Valid c g seen ch)
    (hn : n ∉ seen) (hv : g.nodes.var? n = some v) (hbefore : ∀ y < x, y ∈ blocked g ch n) :
    Justified c g (n :: seen) { ch with colors := ch.colors.setIfInBounds n (some x) } := by
  obtain ⟨hge, _, hlt⟩ := Nodes.var?_eq_some hv
  have hcolors := color_after_choice ch.colors (some x) (hvalid.size ▸ hlt)
  -- the node had no color, so every color that was taken is still taken by the same node
  have hkept : ∀ m y, y ∈ blocked g ch m →
      y ∈ blocked g { ch with colors := ch.colors.setIfInBounds n (some x) } m := by
    intro m y hy
    obtain ⟨b, hedge, hb⟩ := mem_blocked.mp hy
    have hnb : n ≠ b := by
      rintro rfl
      rw [hvalid.waiting n hge hn] at hb
      cases hb
    exact mem_blocked.mpr ⟨b, hedge, by rw [hcolors, if_neg hnb, hb]⟩
  refine ⟨?_, h.nodup, ?_⟩
  · intro w hw
    obtain ⟨m, hm, hrest⟩ := h.crowded w hw
    exact ⟨m, List.mem_cons_of_mem n hm, hrest⟩
  · intro m z hm hz y hy
    apply hkept
    rw [hcolors] at hz
    by_cases hnm : n = m
    · subst hnm
      rw [if_pos rfl] at hz
      cases hz
      exact hbefore y hy
    · rw [if_neg hnm] at hz
      exact h.lowest m z hm hz y hy

/-- A turn keeps the choices justified. -/
theorem turn (h : Justified c g seen ch) (hvalid : Valid c g seen ch)
    (hvars : g.nodes.vars.Nodup) (hn : n ∉ seen) (hturn : Turn c.size g ch n ch') :
    Justified c g (n :: seen) ch' := by
  cases hturn with
  | skip _ =>
      refine ⟨?_, h.nodup, h.lowest⟩
      intro w hw
      obtain ⟨m, hm, hrest⟩ := h.crowded w hw
      exact ⟨m, List.mem_cons_of_mem n hm, hrest⟩
  | spill hv hfull => exact h.spill hvars hn hv hfull
  | paint hv _ _ hbefore => exact h.paint hvalid hn hv hbefore

end Justified

/-- The choices after the last turn are justified. -/
theorem justified_choices (c : Convention) (hg : g.Simple) (hvars : g.nodes.vars.Nodup) :
    Justified c g (turns c.size (order g)).reverse (choices c g) := by
  have h : Valid c g (turns c.size (order g)).reverse (choices c g) ∧
      Justified c g (turns c.size (order g)).reverse (choices c g) := by
    refine choices_induction (P := fun seen ch => Valid c g seen ch ∧ Justified c g seen ch)
      ⟨Valid.start c g, Justified.start c g⟩ ?_
    rintro seen ch ch' n ⟨hvalid, hjust⟩ hn hturn
    exact ⟨hvalid.turn hg hn hturn, hjust.turn hvalid hvars hn hturn⟩
  exact h.2

/-! ## Registers of nodes -/

section
variable (hg : g.Simple) (hnodup : c.palette.Nodup) (hvars : g.nodes.vars.Nodup)
  (h : color c g = .ok (.colored a))

include hg hnodup hvars h in
/-- Every node has a register, which has the color of the node. -/
theorem register?_of_colored (hn : n < g.nodes.size) :
    ∃ r, g.nodes.register? a n = some r ∧ c.color? r = (choices c g).colors.getD n none := by
  obtain ⟨hspills, rfl⟩ := color_eq_colored h
  obtain ⟨x, hx⟩ := Nodes.exists_operand? hn
  obtain ⟨r, hr, hcolor⟩ := (valid_choices c hg).register
    (fun b hb => mem_reverse_turns c.size hg hb) hspills hvars hnodup hx
  refine ⟨r, ?_, hcolor⟩
  rw [Nodes.register?, hx, Option.bind_some, hr]
  rfl

include hg hnodup hvars h in
/-- The ends of an edge from a variable have different registers. -/
theorem register?_ne_of_var {v : Var} (hv : g.nodes.var? m = some v)
    (hedge : g.hasEdge m n = true) : g.nodes.register? a m ≠ g.nodes.register? a n := by
  obtain ⟨hm, hn⟩ := hg.lt_of_hasEdge hedge
  obtain ⟨r, hr, hcolor⟩ := register?_of_colored hg hnodup hvars h hm
  obtain ⟨s, hs, hcolor'⟩ := register?_of_colored hg hnodup hvars h hn
  rw [hr, hs]
  intro heq
  cases heq
  exact (valid_choices c hg).color_ne (fun b hb => mem_reverse_turns c.size hg hb)
    (color_eq_colored h).1 hv hedge (hcolor.symm.trans hcolor')

include hg hnodup hvars h in
/-- The ends of an edge have different registers. -/
theorem register?_ne (hregs : g.nodes.regs.Nodup) (hedge : g.hasEdge m n = true) :
    g.nodes.register? a m ≠ g.nodes.register? a n := by
  obtain ⟨hm, hn⟩ := hg.lt_of_hasEdge hedge
  by_cases hmr : m < g.nodes.regs.length
  · by_cases hnr : n < g.nodes.regs.length
    · -- two registers: they are different whatever the coloring
      rw [Nodes.register?_of_lt a hmr, Nodes.register?_of_lt a hnr]
      intro heq
      have hmn := (List.getElem?_inj hmr hregs).mp heq
      rw [hmn, hg.irrefl n] at hedge
      cases hedge
    · obtain ⟨v, hv⟩ := Nodes.exists_var? (Nat.le_of_not_lt hnr) hn
      exact (register?_ne_of_var hg hnodup hvars h hv (hg.symm hedge)).symm
  · obtain ⟨v, hv⟩ := Nodes.exists_var? (Nat.le_of_not_lt hmr) hm
    exact register?_ne_of_var hg hnodup hvars h hv hedge

include hg hnodup hvars h in
/-- Before the color of a variable come colors of its neighbors. -/
theorem exists_neighbor_of_lt {v : Var} {i j : Nat} {r : Reg} (hv : g.nodes.var? n = some v)
    (hr : a.lookup v = some r) (hi : c.palette[i]? = some r) (hj : j < i) :
    ∃ m s, g.hasEdge n m = true ∧ g.nodes.register? a m = some s ∧ c.palette[j]? = some s := by
  obtain ⟨r', hr', hcolor⟩ := register?_of_colored hg hnodup hvars h (Nodes.var?_eq_some hv).2.2
  have hsame : g.nodes.register? a n = some r := by
    rw [Nodes.register?, Nodes.operand?_eq_var.mpr hv, Option.bind_some, Operand.assign, hr]
    rfl
  rw [hsame] at hr'
  cases hr'
  rw [(Convention.color?_eq_some hnodup).mpr hi] at hcolor
  -- the color was taken when the variable chose, by a neighbor that has kept it
  have htaken := (justified_choices c hg hvars).lowest n i (Nodes.var?_eq_some hv).1 hcolor.symm
    j hj
  obtain ⟨m, hedge, hm⟩ := mem_blocked.mp htaken
  obtain ⟨s, hs, hcolor'⟩ := register?_of_colored hg hnodup hvars h (hg.lt_of_hasEdge hedge).2
  exact ⟨m, s, hedge, hs, (Convention.color?_eq_some hnodup).mp (hcolor'.trans hm)⟩

include hg h in
/-- Exactly the variables are given registers. -/
theorem keys_of_colored : a.map Prod.fst = g.nodes.vars := by
  obtain ⟨hspills, rfl⟩ := color_eq_colored h
  have hall : ∀ p ∈ g.nodes.vars.zipIdx, ((do
      let color ← (choices c g).colors.getD (g.nodes.regs.length + p.2) none
      let r ← c.palette[color]?
      return (p.1, r)) : Option (Var × Reg)).map Prod.fst = some p.1 := by
    rintro ⟨v, i⟩ hp
    have hv : g.nodes.var? (g.nodes.regs.length + i) = some v := by
      rw [Nodes.var?, if_neg (by omega), Nat.add_sub_cancel_left]
      exact List.mk_mem_zipIdx_iff_getElem?.mp hp
    obtain ⟨x, r, hx, hr⟩ := (valid_choices c hg).color_var
      (fun b hb => mem_reverse_turns c.size hg hb) hspills hv
    simp [hx, hr]
  calc (assignment c g.nodes (choices c g)).map Prod.fst
    _ = g.nodes.vars.zipIdx.map Prod.fst := by
        rw [assignment, List.map_filterMap]
        exact List.filterMap_eq_map_iff_forall_eq_some.mpr hall
    _ = g.nodes.vars := List.zipIdx_map_fst 0 _

omit hg hnodup hvars in
include h in
/-- Only registers of the palette are given. -/
theorem mem_palette_of_colored {p : Var × Reg} (hp : p ∈ a) : p.2 ∈ c.palette := by
  obtain ⟨_, rfl⟩ := color_eq_colored h
  obtain ⟨⟨v, i⟩, _, hp⟩ := List.mem_filterMap.mp hp
  obtain ⟨x, _, hp⟩ := Option.bind_eq_some_iff.mp hp
  obtain ⟨r, hr, hp⟩ := Option.bind_eq_some_iff.mp hp
  cases hp
  exact List.mem_of_getElem? hr

end

/-! ## Results -/

theorem registers?_eq_none_iff {r : Coloring} (hg : g.Simple) (h : color c g = .ok r) :
    r.registers? = none ↔ r.spills ≠ [] := by
  cases r with
  | colored a => simp [registers?, spills]
  | spilled vs => simpa [registers?, spills] using (color_spilled hg h).1

/-- Without spills there is a coloring. -/
theorem eq_colored_of_spills {r : Coloring} (hg : g.Simple) (h : color c g = .ok r)
    (hspills : r.spills = []) : ∃ a, r = .colored a := by
  cases r with
  | colored a => exact ⟨a, rfl⟩
  | spilled vs => exact absurd hspills (color_spilled hg h).1

/-- The spilled variables are different and have many neighbors. -/
theorem spills_justified {r : Coloring} (hg : g.Simple) (hvars : g.nodes.vars.Nodup)
    (h : color c g = .ok r) :
    r.spills.Pairwise (fun v w => v.name < w.name) ∧
      ∀ v ∈ r.spills, ∃ n, g.nodes.var? n = some v ∧ c.size ≤ g.degree n := by
  have hjust := justified_choices c hg hvars
  cases r with
  | colored a => exact ⟨.nil, fun v hv => by cases hv⟩
  | spilled vs =>
      obtain ⟨_, rfl⟩ := color_eq_spilled h
      refine ⟨Interference.pairwise_byName hjust.nodup, ?_⟩
      intro v hv
      obtain ⟨n, _, hn⟩ := hjust.crowded v (mem_ordered.mp hv)
      exact ⟨n, hn⟩

theorem nodup_of_ofFunc {f : Func} {u : Nodes} (hu : Nodes.ofFunc c f = .ok u) :
    u.regs.Nodup ∧ u.vars.Nodup := by
  obtain ⟨_, rfl⟩ := Nodes.ofFunc_eq_ok hu
  exact ⟨nodup_eraseDups _, f.nodup_vars⟩

/-- However the nodes of a function are joined, and whatever its registers, if they are as many as
those of the palette, the graph is colored or spills are found. Without spills exactly the variables
are given registers, all of the palette, and the two ends of every edge have different ones. -/
theorem color_addEdges_apart {c' : Convention} {f : Func} {u : Nodes} {es : List (Nat × Nat)}
    (hnodup : c.palette.Nodup) (hu : Nodes.ofFunc c' f = .ok u) (hsize : u.regs.length = c.size)
    (hes : ∀ e ∈ es, e.1 < u.size ∧ e.2 < u.size) (hg : g = (Graph.empty u).addEdges es) :
    ∃ r, color c g = .ok r ∧
      (r.spills = [] → ∃ a, r = .colored a ∧ a.map Prod.fst = u.vars ∧
        (∀ p ∈ a, p.2 ∈ c.palette) ∧
        ∀ m n, g.hasEdge m n = true →
          ∃ x y, u.register? a m = some x ∧ u.register? a n = some y ∧ x ≠ y) := by
  have hsimple : g.Simple := hg ▸ Graph.simple_addEdges hes
  have hnodes : g.nodes = u := by rw [hg, Graph.nodes_addEdges]; rfl
  obtain ⟨hregs, hvars⟩ := nodup_of_ofFunc hu
  rw [← hnodes] at hsize hregs hvars ⊢
  have hok := color_eq hsize
  refine ⟨_, hok, fun hspills => ?_⟩
  obtain ⟨a, ha⟩ := eq_colored_of_spills hsimple hok hspills
  rw [ha] at hok
  refine ⟨a, ha, keys_of_colored hsimple hok, fun p hp => mem_palette_of_colored hok hp, ?_⟩
  intro m n hedge
  obtain ⟨hm, hn⟩ := hsimple.lt_of_hasEdge hedge
  obtain ⟨x, hx, _⟩ := register?_of_colored hsimple hnodup hvars hok hm
  obtain ⟨y, hy, _⟩ := register?_of_colored hsimple hnodup hvars hok hn
  have hne := register?_ne hsimple hnodup hvars hok hregs hedge
  rw [hx, hy] at hne
  exact ⟨x, y, hx, hy, fun hxy => hne (congrArg some hxy)⟩

/-- A function with three variables. -/
def adding : Func where
  name := ⟨"adding"⟩
  args := 0
  locals := 0
  code := [
    .mov (.var ⟨"x"⟩) (.num 1), .arith .add (.var ⟨"x"⟩) (.var ⟨"y"⟩),
    .mov (.var ⟨"z"⟩) (.var ⟨"x"⟩)]

/-- A convention with a palette, without arguments and registers to save. -/
def ofPalette (palette : List Reg) : Convention where
  palette
  stackPointer := .rsp
  shiftCount := .rcx
  result := .rax
  args := []
  callerSave := []
  calleeSave := []

/-- A variable between two registers of which one is not in the palette, joined to a second variable
and that one to a third. -/
theorem color_addEdges_apart_foreign :
    ∃ u g a, Nodes.ofFunc (ofPalette [.rdx, .rax]) adding = .ok u ∧
      g = (Graph.empty u).addEdges [(2, 0), (1, 2), (2, 3), (4, 3)] ∧
      color (ofPalette [.rcx, .rax]) g = .ok (.colored a) ∧
      a.map Prod.fst = [⟨"x"⟩, ⟨"y"⟩, ⟨"z"⟩] ∧
      ∃ x y, u.register? a 2 = some x ∧ u.register? a 1 = some y ∧ x ≠ y := by
  let u : Nodes := ⟨[.rdx, .rax], [⟨"x"⟩, ⟨"y"⟩, ⟨"z"⟩]⟩
  let g : Graph := (Graph.empty u).addEdges [(2, 0), (1, 2), (2, 3), (4, 3)]
  have hu : Nodes.ofFunc (ofPalette [.rdx, .rax]) adding = .ok u :=
    Nodes.ofFunc_of_isComplete _ (by decide)
  have hnone : (color (ofPalette [.rcx, .rax]) g).toOption.map spills = some [] := by
    decide +kernel
  obtain ⟨r, hok, hcolored⟩ := color_addEdges_apart (c := ofPalette [.rcx, .rax]) (g := g)
    (by decide) hu rfl (by decide) rfl
  rw [hok] at hnone
  obtain ⟨a, rfl, hkeys, _, hapart⟩ := hcolored (Option.some.inj hnone)
  exact ⟨u, g, a, hu, rfl, hok, hkeys, hapart 2 1 (by decide +kernel)⟩

/-- However the nodes of a function are joined, the spilled variables are different ones, in the
order of their names, each with as many neighbors as there are colors, and there are registers
exactly if there are no spills. Then a variable has the first register of the palette that no
neighbor has: each one before it is that of a neighbor. -/
theorem color_addEdges_justified {f : Func} {u : Nodes} {es : List (Nat × Nat)}
    (hnodup : c.palette.Nodup) (hu : Nodes.ofFunc c f = .ok u)
    (hes : ∀ e ∈ es, e.1 < u.size ∧ e.2 < u.size) (hg : g = (Graph.empty u).addEdges es) :
    ∃ r, color c g = .ok r ∧
      r.spills.Pairwise (fun v w => v.name < w.name) ∧
      (∀ v ∈ r.spills, ∃ n, u.var? n = some v ∧ c.size ≤ g.degree n) ∧
      ((∀ n v, u.var? n = some v → g.degree n < c.size) → r.spills = []) ∧
      (r.registers? = none ↔ r.spills ≠ []) ∧
      (r.spills = [] → ∃ a, r = .colored a ∧
        ∀ n v (i : Nat) x, u.var? n = some v → a.lookup v = some x → c.palette[i]? = some x →
          ∀ j < i, ∃ m y, g.hasEdge n m = true ∧ u.register? a m = some y ∧
            c.palette[j]? = some y) := by
  have hsimple : g.Simple := hg ▸ Graph.simple_addEdges hes
  have hnodes : g.nodes = u := by rw [hg, Graph.nodes_addEdges]; rfl
  have hsize : u.regs.length = c.size := by
    obtain ⟨_, rfl⟩ := Nodes.ofFunc_eq_ok hu
    exact congrArg List.length (eraseDups_eq_self hnodup)
  have hvars := (nodup_of_ofFunc hu).2
  rw [← hnodes] at hsize hvars ⊢
  have hok := color_eq hsize
  obtain ⟨hsorted, hcrowded⟩ := spills_justified hsimple hvars hok
  refine ⟨_, hok, hsorted, hcrowded, ?_, registers?_eq_none_iff hsimple hok, ?_⟩
  · intro hfew
    refine List.eq_nil_iff_forall_not_mem.mpr fun v hv => ?_
    obtain ⟨n, hn, hdegree⟩ := hcrowded v hv
    have := hfew n v hn
    omega
  · intro hspills
    obtain ⟨a, ha⟩ := eq_colored_of_spills hsimple hok hspills
    rw [ha] at hok
    refine ⟨a, ha, ?_⟩
    intro n v i x hv hx hi j hj
    exact exists_neighbor_of_lt hsimple hnodup hvars hok hv hx hi hj

/-- Of three variables that are all joined one is spilled. Without one of the edges none is, and the
variable with two neighbors has the second register of the palette next to the first. -/
theorem color_addEdges_justified_triangle :
    ∃ u g g', Nodes.ofFunc (ofPalette [.rcx, .rax]) adding = .ok u ∧
      g = (Graph.empty u).addEdges [(2, 3), (3, 4), (2, 4)] ∧
      g' = (Graph.empty u).addEdges [(2, 3), (3, 4)] ∧
      (∃ r n, color (ofPalette [.rcx, .rax]) g = .ok r ∧ r.registers? = none ∧
        r.spills = [⟨"z"⟩] ∧ u.var? n = some ⟨"z"⟩ ∧ 2 ≤ g.degree n) ∧
      ∃ a m, color (ofPalette [.rcx, .rax]) g' = .ok (.colored a) ∧
        a.lookup ⟨"y"⟩ = some .rax ∧ g'.hasEdge 3 m = true ∧ u.register? a m = some .rcx := by
  let u : Nodes := ⟨[.rcx, .rax], [⟨"x"⟩, ⟨"y"⟩, ⟨"z"⟩]⟩
  let g : Graph := (Graph.empty u).addEdges [(2, 3), (3, 4), (2, 4)]
  let g' : Graph := (Graph.empty u).addEdges [(2, 3), (3, 4)]
  have hu : Nodes.ofFunc (ofPalette [.rcx, .rax]) adding = .ok u :=
    Nodes.ofFunc_of_isComplete _ (by decide)
  have hone : (color (ofPalette [.rcx, .rax]) g).toOption.map spills = some [⟨"z"⟩] := by
    decide +kernel
  have hnone : (color (ofPalette [.rcx, .rax]) g').toOption.map spills = some [] := by
    decide +kernel
  have hsecond : ((color (ofPalette [.rcx, .rax]) g').toOption.bind registers?).bind
      (List.lookup ⟨"y"⟩) = some .rax := by
    decide +kernel
  refine ⟨u, g, g', hu, rfl, rfl, ?_, ?_⟩
  · obtain ⟨r, hok, _, hcrowded, _, hnil, _⟩ := color_addEdges_justified
      (c := ofPalette [.rcx, .rax]) (g := g) (by decide) hu (by decide) rfl
    rw [hok] at hone
    have hspills : r.spills = [⟨"z"⟩] := Option.some.inj hone
    obtain ⟨n, hn, hdegree⟩ := hcrowded ⟨"z"⟩ (by simp [hspills])
    exact ⟨r, n, hok, hnil.mpr (by simp [hspills]), hspills, hn, hdegree⟩
  · obtain ⟨r, hok, _, _, _, _, hcolored⟩ := color_addEdges_justified
      (c := ofPalette [.rcx, .rax]) (g := g') (by decide) hu (by decide) rfl
    rw [hok] at hnone hsecond
    obtain ⟨a, rfl, hlowest⟩ := hcolored (Option.some.inj hnone)
    obtain ⟨m, y, hedge, hy, hfirst⟩ := hlowest 3 ⟨"y"⟩ 1 .rax rfl hsecond rfl 0 (by decide)
    cases hfirst
    exact ⟨a, m, hok, hsecond, hedge, hy⟩

end Coloring

end Spillway
