import Spillway.Proofs.Coloring.Graphs
import Spillway.Proofs.Interference.Guarded

/-!
# Coloring with checked accesses

Coloring once more, with a stack of nodes that is cut by index, and with the neighbors, the operand
and the color of a node and the register of a color looked up at indices that are checked. The
operand of a node that chooses has to be a variable, and a variable that is given a register has to
have a color.

A graph without loops whose edges join nodes never makes it go astray, and the results are those of
`Coloring.color` (`Guarded.color_eq`). For one turn it is enough that there is a color, or the lack
of one, for every node (`choose_eq`), which no turn changes. That every variable has a color at the
end is `Coloring.Valid.color_var`.
-/

namespace Spillway

open Checked

namespace Guarded

open Coloring (Choices)

/-! ## Coloring -/

/-- The operand of a node. -/
def operand (u : Nodes) (id : Nat) : Checked Operand := item u.operands id

/-- The variable of a node that is no register. -/
def varAt (u : Nodes) (id : Nat) : Checked Var := do need (← operand u id).var?

/-- The nodes of a graph by degree, then by id. -/
def order (g : Graph) : Checked (List Nat) := do
  let nodes ← (List.range g.size).mapM fun id => do return ((← cell g.adj id).size, id)
  return (ordered Coloring.precedes nodes).map Prod.snd

/-- The stack of nodes before the first turn. -/
def stack (k : Nat) (nodes : List Nat) : Checked (List Nat) := do
  let low := min k nodes.length
  let first ← slice nodes 0 low
  let rest ← (List.range' low (nodes.length - low)).reverse.mapM (item nodes)
  return first ++ rest

/-- The choices before the first turn: registers have their own color. -/
def start (c : Convention) (g : Graph) : Checked Choices := do
  let colors ← fill (List.range g.size) fun _ id => do
    return (← operand g.nodes id).reg?.bind c.color?
  return ⟨colors.toArray, []⟩

/-- The taken colors, and the color of one more neighbor. -/
def block (colors : Array (Option Nat)) (taken : BitSet) (id : Nat) : Checked BitSet := do
  match ← cell colors id with
  | some color => insert taken color
  | none => return taken

/-- The first of the colors that is not taken. -/
def firstFree (taken : BitSet) : List Nat → Checked (Option Nat)
  | [] => return none
  | color :: colors => do
    if ← contains taken color then firstFree taken colors else return some color

/-- The register of the color of a node. -/
def register (c : Convention) (colors : Array (Option Nat)) (id : Nat) : Checked Reg := do
  item c.palette (← need (← cell colors id))

/-- The turn of one node. The register of the color it takes is looked up at once. -/
def choose (c : Convention) (g : Graph) (ch : Choices) (id : Nat) : Checked Choices :=
  if id < g.nodes.regs.length then pure ch
  else do
    let taken ← (← cell g.adj id).toList.foldlM (block ch.colors) .empty
    let v ← varAt g.nodes id
    if c.size ≤ taken.size then return { ch with spills := v :: ch.spills }
    else do
      let colors ← match ← firstFree taken (List.range c.size) with
        | some color => setCell ch.colors id (some color)
        | none => pure ch.colors
      let _ ← register c colors id
      return { ch with colors }

/-- The turns of the nodes on a stack, from its end on, for as many nodes as there are. -/
def select (c : Convention) (g : Graph) : Nat → List Nat → Choices → Checked Choices
  | 0, _, ch => return ch
  | last + 1, stack, ch => do
    let id ← item stack last
    let stack ← slice stack 0 last
    select c g last stack (← choose c g ch id)

/-- The registers of the colors that the variables have been given. -/
def assignment (c : Convention) (g : Graph) (ch : Choices) : Checked Assignment :=
  (List.range' g.nodes.regs.length (g.size - g.nodes.regs.length)).mapM fun id => do
    return (← varAt g.nodes id, ← register c ch.colors id)

/-- Color a graph. Its registers must be as many as those of the palette. -/
def color (c : Convention) (g : Graph) : Checked Coloring :=
  if g.nodes.regs.length ≠ c.size then
    done (.error (.of (.paletteSize g.nodes.regs.length c.size)))
  else do
    let nodes ← stack c.size (← order g)
    let ch ← select c g nodes.length nodes (← start c g)
    if ch.spills.isEmpty then return .colored (← assignment c g ch)
    else return .spilled (Interference.byName ch.spills)

variable {c : Convention} {g : Graph} {ch : Choices} {id : Nat}

/-! ## Before the first turn -/

theorem operand_eq {u : Nodes} {x : Operand} (h : u.operand? id = some x) :
    operand u id = pure x := item_eq (u.operand?_eq id ▸ h)

theorem varAt_eq {u : Nodes} {v : Var} (h : u.var? id = some v) : varAt u id = pure v := by
  rw [varAt, operand_eq (Nodes.operand?_eq_var.mpr h)]
  rfl

theorem order_eq (g : Graph) : order g = pure (Coloring.order g) := by
  have hnodes : (List.range g.size).mapM (fun id => do return ((← cell g.adj id).size, id)) =
      pure ((List.range g.size).map fun id => (g.degree id, id)) := by
    refine mapM_pure fun id hid => ?_
    rw [cell_eq_getD (List.mem_range.mp hid) .empty]
    rfl
  rw [order, hnodes, pure_bind]
  rfl

theorem map_getD_range' {α : Type} (xs : List α) (x : α) (n : Nat) :
    (List.range' n (xs.length - n)).map (xs.getD · x) = xs.drop n := by
  refine List.ext_getElem (by simp) fun i h₁ h₂ => ?_
  rw [List.length_drop] at h₂
  have hi : n + i < xs.length := by omega
  simp [List.getElem?_eq_getElem hi]

/-- The stack is taken from its end on in the order of the turns. -/
theorem stack_eq (k : Nat) (nodes : List Nat) :
    stack k nodes = pure (Coloring.turns k nodes).reverse := by
  have hitem : ∀ i ∈ (List.range' (min k nodes.length)
      (nodes.length - min k nodes.length)).reverse, item nodes i = pure (nodes.getD i 0) := by
    intro i hi
    rw [List.mem_reverse, List.mem_range'_1] at hi
    exact item_eq_getD (by omega) 0
  rw [stack, slice_eq (Nat.zero_le _) (Nat.min_le_right k nodes.length), pure_bind,
    mapM_pure hitem, pure_bind, List.map_reverse, map_getD_range', Coloring.turns,
    List.reverse_append, List.reverse_reverse, List.drop_zero]
  rcases Nat.le_total k nodes.length with hle | hge
  · rw [Nat.min_eq_left hle]
  · rw [Nat.min_eq_right hge, List.take_of_length_le hge, List.drop_of_length_le hge,
      List.take_length, List.drop_length]

theorem start_eq (c : Convention) (hg : g.size = g.nodes.size) :
    start c g = pure (Coloring.start c g.nodes) := by
  have hsize : g.size = g.nodes.operands.length := by
    rw [hg, Nodes.operands, Nodes.size, List.length_append, List.length_map, List.length_map]
  have hcolor : ∀ id ∈ List.range g.size,
      (do return (← operand g.nodes id).reg?.bind c.color? : Checked (Option Nat)) =
        pure ((g.nodes.operands.getD id default).reg?.bind c.color?) := by
    intro id hid
    rw [operand, item_eq_getD (hsize ▸ List.mem_range.mp hid) default, pure_bind]
  have hall := map_getD_range' g.nodes.operands default 0
  rw [List.drop_zero, Nat.sub_zero, ← hsize, ← List.range_eq_range'] at hall
  rw [start, fill_pure fun _ => hcolor, pure_bind]
  have hcolors : (List.range g.size).map
      (fun id => (g.nodes.operands.getD id default).reg?.bind c.color?) =
        g.nodes.operands.map fun x => x.reg?.bind c.color? := by
    rw [← hall, List.map_map, hall]
    rfl
  rw [hcolors, Nodes.operands, List.map_append, List.map_map, List.map_map]
  rfl

theorem foldlM_block (colors : Array (Option Nat)) (taken : BitSet) {ids : List Nat}
    (h : ∀ id ∈ ids, id < colors.size) :
    ids.foldlM (block colors) taken =
      pure (taken.insertMany (ids.filterMap fun id => colors.getD id none)) := by
  induction ids generalizing taken with
  | nil => rfl
  | cons id ids ih =>
      have hrest := fun id' hid' => h id' (List.mem_cons_of_mem id hid')
      rw [List.foldlM_cons, block, cell_eq_getD (h id List.mem_cons_self) none, pure_bind,
        List.filterMap_cons]
      cases colors.getD id none with
      | none => exact ih taken hrest
      | some color =>
          simp only [insert_eq, pure_bind]
          exact ih (taken.insert color) hrest

theorem firstFree_eq (taken : BitSet) (colors : List Nat) :
    firstFree taken colors = pure (colors.find? fun color => !taken.contains color) := by
  induction colors with
  | nil => rfl
  | cons color colors ih =>
      rw [firstFree, contains_eq, pure_bind, List.find?_cons]
      cases taken.contains color with
      | true => exact ih
      | false => rfl

/-! ## Turns -/

theorem register_eq {colors : Array (Option Nat)} {x : Nat} {r : Reg}
    (hx : colors.getD id none = some x) (hr : c.palette[x]? = some r) :
    register c colors id = pure r := by
  rw [Array.getD_eq_getD_getElem?] at hx
  cases hcell : colors[id]? with
  | none =>
      rw [hcell] at hx
      cases hx
  | some color =>
      rw [hcell, Option.getD_some] at hx
      rw [register, cell_eq hcell, pure_bind, hx, need, pure_bind, item_eq hr]

/-- The turn of a node does not go astray if there is a color, or none, for every node. -/
theorem choose_eq (c : Convention) (hg : g.Simple) (hsize : ch.colors.size = g.nodes.size)
    (hid : id < g.size) : choose c g ch id = pure (Coloring.choose c.size g ch id) := by
  unfold choose Coloring.choose
  by_cases hreg : id < g.nodes.regs.length
  · rw [if_pos hreg, Nodes.var?, if_pos hreg]
  · obtain ⟨v, hv⟩ := Nodes.exists_var? (Nat.le_of_not_lt hreg) (hg.size ▸ hid)
    have hneighbors : ∀ b ∈ (g.neighbors id).toList, b < ch.colors.size := by
      intro b hb
      rw [hsize]
      exact (hg.lt_of_hasEdge (BitSet.mem_toList.mp hb)).2
    have htaken : (g.adj.getD id .empty).toList.foldlM (block ch.colors) .empty =
        pure (Coloring.blocked g ch id) := foldlM_block ch.colors .empty hneighbors
    rw [if_neg hreg, hv, cell_eq_getD hid .empty, pure_bind, htaken, pure_bind, varAt_eq hv,
      pure_bind]
    simp only
    split
    · rfl
    · rename_i hfew
      -- fewer colors are taken than there are, so one is free, and it has a register
      obtain ⟨x, hx⟩ := Coloring.firstFree?_isSome (Nat.lt_of_not_le hfew)
      have hpalette := List.getElem?_eq_getElem (Coloring.firstFree?_eq_some hx).1
      have hlt : id < ch.colors.size := by rw [hsize, ← hg.size]; exact hid
      have hset : (ch.colors.setIfInBounds id (some x)).getD id none = some x := by
        rw [Coloring.color_after_choice ch.colors (some x) hlt, if_pos rfl]
      rw [firstFree_eq, ← Coloring.firstFree?, hx, pure_bind]
      simp only [setCell_eq hlt, pure_bind, register_eq hset hpalette]

theorem size_turn {k : Nat} {ch' : Choices} (h : Coloring.Turn k g ch id ch') :
    ch'.colors.size = ch.colors.size := by
  cases h with
  | skip _ => rfl
  | spill _ _ => rfl
  | paint _ _ _ _ => exact Array.size_setIfInBounds

/-- The turns are taken from the end of the stack on. -/
theorem select_eq (c : Convention) (hg : g.Simple) {ids : List Nat}
    (hids : ∀ id ∈ ids, id < g.size) (hsize : ch.colors.size = g.nodes.size) :
    select c g ids.length ids.reverse ch = pure (ids.foldl (Coloring.choose c.size g) ch) := by
  induction ids generalizing ch with
  | nil => rfl
  | cons id ids ih =>
      have hid := hids id List.mem_cons_self
      have hlast : (ids.reverse ++ [id])[ids.length]? = some id := by simp
      have hslice : slice (ids.reverse ++ [id]) 0 ids.length = pure ids.reverse := by
        rw [slice_eq (Nat.zero_le _) (by simp)]
        simp
      rw [List.length_cons, List.reverse_cons, select, item_eq hlast, pure_bind, hslice, pure_bind,
        choose_eq c hg hsize hid, pure_bind, List.foldl_cons]
      exact ih (fun id' hid' => hids id' (List.mem_cons_of_mem id hid'))
        ((size_turn (Coloring.turn_choose c.size g ch id)).trans hsize)

/-! ## Results -/

/-- A loop over the indices of a list, counted from `m` on, that has a result at each of them. -/
theorem mapM_range' {α β : Type} {f : Nat → Checked β} {h : α × Nat → Option β} {xs : List α}
    (m n : Nat)
    (heq : ∀ i x, xs[i]? = some x → ∃ y, f (m + n + i) = pure y ∧ h (x, n + i) = some y) :
    (List.range' (m + n) xs.length).mapM f = pure ((xs.zipIdx n).filterMap h) := by
  induction xs generalizing n with
  | nil => rfl
  | cons x xs ih =>
      obtain ⟨y, hf, hh⟩ := heq 0 x rfl
      rw [Nat.add_zero] at hf hh
      have hrest := ih (n + 1) fun i x' hx' => by
        have hnext := heq (i + 1) x' hx'
        rwa [Nat.add_comm i 1, ← Nat.add_assoc, ← Nat.add_assoc, Nat.add_assoc m n 1] at hnext
      rw [List.length_cons, List.range'_succ, List.mapM_cons, hf, pure_bind, Nat.add_assoc, hrest,
        pure_bind, List.zipIdx_cons, List.filterMap_cons_some hh]

/-- Where every variable has a color, all of them are given the registers of their colors. -/
theorem assignment_eq (hg : g.size = g.nodes.size)
    (hcolors : ∀ {id v}, g.nodes.var? id = some v →
      ∃ x r, ch.colors.getD id none = some x ∧ c.palette[x]? = some r) :
    assignment c g ch = pure (Coloring.assignment c g.nodes ch) := by
  have hvars : g.size - g.nodes.regs.length = g.nodes.vars.length := by
    rw [hg, Nodes.size, Nat.add_sub_cancel_left]
  unfold assignment Coloring.assignment
  rw [hvars]
  refine mapM_range' g.nodes.regs.length 0 fun i v hi => ?_
  have hv : g.nodes.var? (g.nodes.regs.length + i) = some v := by
    simp [Nodes.var?, hi]
  obtain ⟨x, r, hx, hr⟩ := hcolors hv
  refine ⟨(v, r), ?_, by simp [hx, hr]⟩
  rw [Nat.add_zero, varAt_eq hv, pure_bind, register_eq hx hr, pure_bind]

/-! ## Coloring never goes astray -/

theorem color_eq (c : Convention) (hg : g.Simple) :
    color c g = .done (Coloring.color c g) := by
  by_cases hregs : g.nodes.regs.length = c.size
  · have hvalid := Coloring.valid_choices c hg
    have hids : ∀ id ∈ Coloring.turns c.size (Coloring.order g), id < g.size := by
      intro id hid
      exact List.mem_range.mp ((Coloring.turns_order_perm c.size g).mem_iff.mp hid)
    have hselect := select_eq c hg hids (Coloring.Valid.start c g).size
    rw [color, if_neg (fun hne => hne hregs), Coloring.color_eq hregs, order_eq, pure_bind,
      stack_eq, pure_bind, start_eq c hg.size, pure_bind, List.length_reverse, hselect, pure_bind]
    show (if (Coloring.choices c g).spills.isEmpty then _ else _) = _
    split
    · rename_i hspills
      have hassign := assignment_eq hg.size fun hv =>
        hvalid.color_var (fun _ => Coloring.mem_reverse_turns c.size hg)
          (List.isEmpty_iff.mp hspills) hv
      rw [← Coloring.choices, hassign]
      rfl
    · rfl
  · rw [color, if_pos hregs, Coloring.color, if_pos hregs]

end Guarded

end Spillway
