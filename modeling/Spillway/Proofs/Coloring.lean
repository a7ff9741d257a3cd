import Spillway.Allocator.Assign
import Spillway.Proofs.Convention
import Spillway.Proofs.Interference.Edges

/-!
# Colorings are proper

A node skips its turn, is spilled or takes the first color that no neighbor has (`Coloring.Turn`).
Every node has one turn (`turns_order_perm`), so what every turn keeps holds of the choices that a
coloring ends with (`choices_induction`).

After every turn, registers have their own colors, the nodes whose turn it was have a color below
the size of the palette or are spilled, and no variable has the color of a neighbor
(`Coloring.Valid`). A coloring without spills thus gives every variable of the graph a register of
the palette that no neighbor has (`color_colored`), and all spills are variables of the graph
(`color_spilled`). The registers of the graph may be others than those of the palette.
-/

namespace Spillway

namespace Coloring

variable {c : Convention} {g : Graph} {ch : Choices} {k a b : Nat}

/-! ## Turns -/

theorem order_perm (g : Graph) : (order g).Perm (List.range g.size) := by
  have h := (ordered_perm precedes ((List.range g.size).map fun a => (g.degree a, a))).map Prod.snd
  rw [List.map_map] at h
  exact h.trans (.of_eq (List.map_id _))

theorem turns_perm (k : Nat) (nodes : List Nat) : (turns k nodes).Perm nodes := by
  have h : (nodes.take k ++ nodes.drop k).Perm (turns k nodes) :=
    List.perm_append_comm.trans (List.Perm.append_left _ (List.reverse_perm _).symm)
  rw [List.take_append_drop] at h
  exact h.symm

/-- Every node has one turn. -/
theorem turns_order_perm (k : Nat) (g : Graph) : (turns k (order g)).Perm (List.range g.size) :=
  (turns_perm k _).trans (order_perm g)

/-! ## Free colors -/

theorem mem_blocked : k ∈ blocked g ch a ↔
    ∃ b, g.hasEdge a b = true ∧ ch.colors.getD b none = some k := by
  rw [blocked, BitSet.mem_ofList, List.mem_filterMap]
  simp only [BitSet.mem_toList]
  rfl

/-- The first free color is free, and those before it are not. -/
theorem firstFree?_eq_some {taken : BitSet} {color : Nat} (h : firstFree? k taken = some color) :
    color < k ∧ color ∉ taken ∧ ∀ x < color, x ∈ taken := by
  obtain ⟨hfree, hlt, hbefore⟩ := List.find?_range_eq_some.mp h
  refine ⟨List.mem_range.mp hlt, by simpa [BitSet.mem_iff] using hfree, fun x hx => ?_⟩
  simpa [BitSet.mem_iff] using hbefore x hx

/-- When fewer colors are taken than there are, one is free. -/
theorem firstFree?_isSome {taken : BitSet} (h : taken.size < k) :
    ∃ color, firstFree? k taken = some color := by
  cases hfree : firstFree? k taken with
  | some color => exact ⟨color, rfl⟩
  | none =>
      have hall : List.range k ⊆ taken.toList := by
        intro color hcolor
        have htaken := List.find?_eq_none.mp hfree color hcolor
        exact BitSet.mem_toList.mpr (by simpa [BitSet.mem_iff] using htaken)
      have hlen := List.nodup_range.length_le_of_subset hall
      rw [List.length_range, BitSet.length_toList] at hlen
      omega

/-! ## One turn -/

/-- What the turn of the node `a` may make of the choices. -/
inductive Turn (k : Nat) (g : Graph) (ch : Choices) (a : Nat) : Choices → Prop
  /-- A register has no choice. -/
  | skip : g.nodes.var? a = none → Turn k g ch a ch
  /-- All colors are taken. -/
  | spill {v : Var} : g.nodes.var? a = some v → k ≤ (blocked g ch a).size →
      Turn k g ch a { ch with spills := v :: ch.spills }
  /-- The first color that is not taken. -/
  | paint {v : Var} {x : Nat} : g.nodes.var? a = some v → x < k → x ∉ blocked g ch a →
      (∀ y < x, y ∈ blocked g ch a) →
      Turn k g ch a { ch with colors := ch.colors.setIfInBounds a (some x) }

theorem turn_choose (k : Nat) (g : Graph) (ch : Choices) (a : Nat) :
    Turn k g ch a (choose k g ch a) := by
  unfold choose
  cases hv : g.nodes.var? a with
  | none => exact .skip hv
  | some v =>
      simp only
      split
      · rename_i hfull
        exact .spill hv hfull
      · -- fewer colors are taken than there are, so one is free
        rename_i hfew
        obtain ⟨x, hx⟩ := firstFree?_isSome (Nat.lt_of_not_le hfew)
        obtain ⟨hlt, hfree, hbefore⟩ := firstFree?_eq_some hx
        rw [hx]
        exact .paint hv hlt hfree hbefore

/-- The choices after the last turn. -/
def choices (c : Convention) (g : Graph) : Choices :=
  (turns c.size (order g)).foldl (choose c.size g) (start c g.nodes)

/-- What holds before the first turn and is kept by the turn of a node that has not had one holds
after the last turn. -/
theorem choices_induction {P : List Nat → Choices → Prop} (hstart : P [] (start c g.nodes))
    (hturn : ∀ {seen ch ch' a}, P seen ch → a ∉ seen → Turn c.size g ch a ch' → P (a :: seen) ch') :
    P (turns c.size (order g)).reverse (choices c g) := by
  have hfold : ∀ (nodes seen : List Nat) (ch : Choices), P seen ch → nodes.Nodup →
      (∀ a ∈ nodes, a ∉ seen) →
      P (nodes.reverse ++ seen) (nodes.foldl (choose c.size g) ch) := by
    intro nodes
    induction nodes with
    | nil => exact fun seen ch h _ _ => h
    | cons a nodes ih =>
        intro seen ch h hnodup hnew
        rw [List.nodup_cons] at hnodup
        rw [List.foldl_cons, List.reverse_cons, List.append_assoc]
        have hnext := hturn h (hnew a List.mem_cons_self) (turn_choose c.size g ch a)
        refine ih (a :: seen) _ hnext hnodup.2 fun b hb hmem => ?_
        rcases List.mem_cons.mp hmem with rfl | hmem
        · exact hnodup.1 hb
        · exact hnew b (List.mem_cons_of_mem a hb) hmem
  have hnodup := (turns_order_perm c.size g).nodup_iff.mpr List.nodup_range
  have h := hfold _ [] _ hstart hnodup fun _ _ => List.not_mem_nil
  rwa [List.append_nil] at h

/-- Every node has had its turn. -/
theorem mem_reverse_turns (k : Nat) (hg : g.Simple) (ha : a < g.nodes.size) :
    a ∈ (turns k (order g)).reverse := by
  rw [List.mem_reverse, (turns_order_perm k g).mem_iff, List.mem_range, hg.size]
  exact ha

/-! ## One turn after the other -/

/-- What holds of the choices when the nodes `seen` have had their turns. -/
structure Valid (c : Convention) (g : Graph) (seen : List Nat) (ch : Choices) : Prop where
  size : ch.colors.size = g.nodes.size
  /-- Registers keep their own colors, if they have one. -/
  regs : ∀ a < g.nodes.regs.length, ch.colors.getD a none = g.nodes.regs[a]?.bind c.color?
  /-- Nobody else has chosen before a turn. -/
  waiting : ∀ a, g.nodes.regs.length ≤ a → a ∉ seen → ch.colors.getD a none = none
  /-- A variable that has had its turn is colored or spilled. -/
  turned : ∀ a ∈ seen, ∀ v, g.nodes.var? a = some v →
    (∃ color < c.size, ch.colors.getD a none = some color) ∨ v ∈ ch.spills
  spills : ∀ v ∈ ch.spills, v ∈ g.nodes.vars
  /-- Neighbors of a variable have other colors. -/
  apart : ∀ a b color, g.nodes.regs.length ≤ a → g.hasEdge a b = true →
    ch.colors.getD a none = some color → ch.colors.getD b none ≠ some color

/-- A node that takes a color changes no other. -/
theorem color_after_choice (colors : Array (Option Nat)) (x : Option Nat) (ha : a < colors.size)
    (b : Nat) : (colors.setIfInBounds a x).getD b none =
      if a = b then x else colors.getD b none := by
  rw [Array.getD_eq_getD_getElem?, Array.getElem?_setIfInBounds, Array.getD_eq_getD_getElem?]
  split
  · rfl
  · rfl

theorem Valid.start (c : Convention) (g : Graph) : Valid c g [] (start c g.nodes) := by
  have hcolors : ∀ a, (Coloring.start c g.nodes).colors.getD a none =
      if a < g.nodes.regs.length then g.nodes.regs[a]?.bind c.color? else none := by
    intro a
    simp only [Coloring.start, Array.getD_eq_getD_getElem?, List.getElem?_toArray]
    split
    · rename_i ha
      rw [List.getElem?_append_left (by simpa using ha), List.getElem?_map]
      cases g.nodes.regs[a]? <;> rfl
    · rename_i ha
      rw [List.getElem?_append_right (by simpa using Nat.le_of_not_lt ha), List.getElem?_map]
      cases g.nodes.vars[a - (g.nodes.regs.map c.color?).length]? <;> rfl
  refine ⟨?_, fun a ha => ?_, fun a ha _ => ?_, fun a ha => ?_, fun v hv => ?_,
    fun a b color ha _ hcol => ?_⟩
  · simp [Coloring.start, Nodes.size]
  · rw [hcolors, if_pos ha]
  · rw [hcolors, if_neg (Nat.not_lt_of_le ha)]
  · cases ha
  · cases hv
  · rw [hcolors, if_neg (Nat.not_lt_of_le ha)] at hcol
    cases hcol

/-- The turn of a register changes nothing. -/
theorem Valid.skip {seen : List Nat} (h : Valid c g seen ch) (hv : g.nodes.var? a = none) :
    Valid c g (a :: seen) ch := by
  refine ⟨h.size, h.regs, fun b hb hnot => h.waiting b hb fun hm => hnot (.tail _ hm),
    fun b hb v hbv => ?_, h.spills, h.apart⟩
  rcases List.mem_cons.mp hb with rfl | hb
  · rw [hv] at hbv
    cases hbv
  · exact h.turned b hb v hbv

/-- A variable may be spilled on its turn. -/
theorem Valid.spill {seen : List Nat} {v : Var} (h : Valid c g seen ch)
    (hv : g.nodes.var? a = some v) :
    Valid c g (a :: seen) { ch with spills := v :: ch.spills } := by
  refine ⟨h.size, h.regs, fun b hb hnot => h.waiting b hb fun hm => hnot (.tail _ hm),
    fun b hb w hbw => ?_, fun w hw => ?_, h.apart⟩
  · rcases List.mem_cons.mp hb with rfl | hb
    · rw [hv] at hbw
      cases hbw
      exact .inr List.mem_cons_self
    · exact (h.turned b hb w hbw).imp id (List.mem_cons_of_mem v)
  · rcases List.mem_cons.mp hw with rfl | hw
    · exact (Nodes.var?_eq_some hv).2.1
    · exact h.spills w hw

/-- A variable may take a color that none of its neighbors has. -/
theorem Valid.paint {seen : List Nat} {v : Var} {x : Nat} (hg : g.Simple) (h : Valid c g seen ch)
    (ha : a ∉ seen) (hv : g.nodes.var? a = some v) (hx : x < c.size) (hfree : x ∉ blocked g ch a) :
    Valid c g (a :: seen) { ch with colors := ch.colors.setIfInBounds a (some x) } := by
  obtain ⟨hge, _, hlt⟩ := Nodes.var?_eq_some hv
  have hcolors := color_after_choice ch.colors (some x) (h.size ▸ hlt)
  refine ⟨?_, fun b hb => ?_, fun b hb hnot => ?_, fun b hb w hbw => ?_, h.spills,
    fun b d color hb hedge hcol => ?_⟩
  · simpa using h.size
  · rw [hcolors, if_neg (by omega)]
    exact h.regs b hb
  · rw [hcolors, if_neg fun hab : a = b => hnot (hab ▸ List.mem_cons_self)]
    exact h.waiting b hb fun hm => hnot (.tail _ hm)
  · rw [hcolors]
    split
    · exact .inl ⟨x, hx, rfl⟩
    · rename_i hne
      rcases List.mem_cons.mp hb with rfl | hb
      · exact absurd rfl hne
      · exact h.turned b hb w hbw
  · -- the new color is not that of a neighbor, whichever end of the edge chose it
    rw [hcolors] at hcol ⊢
    by_cases hab : a = b
    · subst hab
      rw [if_pos rfl] at hcol
      cases hcol
      have had : a ≠ d := by
        rintro rfl
        rw [hg.irrefl a] at hedge
        cases hedge
      rw [if_neg had]
      exact fun hd => hfree (mem_blocked.mpr ⟨d, hedge, hd⟩)
    · rw [if_neg hab] at hcol
      by_cases had : a = d
      · subst had
        rw [if_pos rfl]
        rintro hxc
        cases hxc
        exact hfree (mem_blocked.mpr ⟨b, hg.symm hedge, hcol⟩)
      · rw [if_neg had]
        exact h.apart b d color hb hedge hcol

/-- A turn keeps the choices valid. -/
theorem Valid.turn {seen : List Nat} {ch' : Choices} (hg : g.Simple) (h : Valid c g seen ch)
    (ha : a ∉ seen) (hturn : Turn c.size g ch a ch') : Valid c g (a :: seen) ch' := by
  cases hturn with
  | skip hv => exact h.skip hv
  | spill hv _ => exact h.spill hv
  | paint hv hx hfree _ => exact h.paint hg ha hv hx hfree

/-- The choices after the last turn are valid. -/
theorem valid_choices (c : Convention) (hg : g.Simple) :
    Valid c g (turns c.size (order g)).reverse (choices c g) :=
  choices_induction (Valid.start c g) fun h ha hturn => h.turn hg ha hturn

/-! ## Results -/

/-- Looking up an element of a list without duplicates among values given by place. -/
theorem lookup_filterMap_zipIdx (F : Nat → Option Reg) (v : Var) {vs : List Var}
    (hnodup : vs.Nodup) (n : Nat) :
    ((vs.zipIdx n).filterMap fun p => (F p.2).map (p.1, ·)).lookup v =
      (vs.idxOf? v).bind fun i => F (n + i) := by
  induction vs generalizing n with
  | nil => rfl
  | cons w vs ih =>
      rw [List.nodup_cons] at hnodup
      rw [List.zipIdx_cons, List.filterMap_cons, List.idxOf?_cons]
      have hrest := ih hnodup.2 (n + 1)
      by_cases hwv : w = v
      · have hnone : vs.idxOf? v = none := List.idxOf?_eq_none_iff.mpr (hwv ▸ hnodup.1)
        cases hF : F n with
        | none => simpa [hF, hwv, hnone] using hrest
        | some r => simp [hF, hwv]
      · have hvw : (v == w) = false := by simpa using fun e : v = w => hwv e.symm
        have hshift : ((vs.idxOf? v).bind fun i => F (n + 1 + i)) =
            ((vs.idxOf? v).map (· + 1)).bind fun i => F (n + i) := by
          rw [Option.bind_map]
          congr 1
          funext i
          simp only [Function.comp_apply, Nat.add_assoc, Nat.add_comm 1 i]
        rw [hshift] at hrest
        cases hF : F n with
        | none => simpa [hF, hwv] using hrest
        | some r => simpa [hF, hwv, hvw, List.lookup_cons] using hrest

/-- The register of a variable is that of the color of its node. -/
theorem lookup_assignment {u : Nodes} (hnodup : u.vars.Nodup) (v : Var) :
    (assignment c u ch).lookup v =
      (u.id? (.var v)).bind fun a => (ch.colors.getD a none).bind (c.palette[·]?) := by
  have h := lookup_filterMap_zipIdx
    (fun i => (ch.colors.getD (u.regs.length + i) none).bind (c.palette[·]?)) v hnodup 0
  have hassign : assignment c u ch = u.vars.zipIdx.filterMap fun p =>
      ((ch.colors.getD (u.regs.length + p.2) none).bind (c.palette[·]?)).map (p.1, ·) := by
    unfold assignment
    congr 1
    funext ⟨w, i⟩
    show ((ch.colors.getD (u.regs.length + i) none).bind fun color =>
      (c.palette[color]?).bind fun r => some (w, r)) = _
    cases ch.colors.getD (u.regs.length + i) none with
    | none => rfl
    | some x => cases hx : c.palette[x]? <;> simp [hx]
  rw [hassign, h, Nodes.id?, Option.bind_map]
  simp only [Nat.zero_add]
  rfl

section
variable {seen : List Nat} (h : Valid c g seen ch) (hall : ∀ a < g.nodes.size, a ∈ seen)
  (hspills : ch.spills = []) (hvars : g.nodes.vars.Nodup)

include h hall hspills in
/-- Once every node has had its turn and none is spilled, every variable has a color. -/
theorem Valid.color_var {v : Var} (hv : g.nodes.var? a = some v) :
    ∃ x r, ch.colors.getD a none = some x ∧ c.palette[x]? = some r := by
  rcases h.turned a (hall a (Nodes.var?_eq_some hv).2.2) v hv with ⟨x, hx, hcolor⟩ | hspill
  · exact ⟨x, c.palette[x], hcolor, List.getElem?_eq_getElem hx⟩
  · rw [hspills] at hspill
    cases hspill

include h hall hspills hvars in
/-- Then the register of a node has the color of the node. -/
theorem Valid.register (hnodup : c.palette.Nodup) {y : Operand}
    (hy : g.nodes.operand? a = some y) :
    ∃ r, y.assign (assignment c g.nodes ch) = .reg r ∧ c.color? r = ch.colors.getD a none := by
  cases hv : g.nodes.var? a with
  | some v =>
      obtain ⟨x, r, hcolor, hr⟩ := h.color_var hall hspills hv
      cases (Nodes.operand?_eq_var.mpr hv).symm.trans hy
      refine ⟨r, ?_, by rw [hcolor, Convention.color?_eq_some hnodup, hr]⟩
      simp only [Operand.assign, lookup_assignment hvars, Nodes.id?_of_var? hvars hv,
        Option.bind_some, hcolor, hr]
  | none =>
      unfold Nodes.operand? at hy
      split at hy
      · rename_i hlt
        obtain ⟨r, hr, rfl⟩ := Option.map_eq_some_iff.mp hy
        exact ⟨r, rfl, by rw [h.regs a hlt, hr, Option.bind_some]⟩
      · rename_i hge
        obtain ⟨v, hv', rfl⟩ := Option.map_eq_some_iff.mp hy
        rw [Nodes.var?, if_neg hge, hv'] at hv
        cases hv

include h hall hspills in
/-- Then a variable and its neighbors have different colors. -/
theorem Valid.color_ne {v : Var} (hv : g.nodes.var? a = some v) (hedge : g.hasEdge a b = true) :
    ch.colors.getD a none ≠ ch.colors.getD b none := by
  obtain ⟨x, _, hx, _⟩ := h.color_var hall hspills hv
  intro heq
  exact h.apart a b x (Nodes.var?_eq_some hv).1 hedge hx (heq ▸ hx)

end

/-- Registers for all variables of a graph, such that no variable shares one with a neighbor. -/
structure Proper (c : Convention) (g : Graph) (a : Assignment) : Prop where
  total : ∀ v ∈ g.nodes.vars, ∃ r, a.lookup v = some r
  palette : ∀ {v r}, a.lookup v = some r → r ∈ c.palette
  apart : ∀ {v y}, g.interfere (.var v) y = true → (Operand.var v).assign a ≠ y.assign a

/-- Choices without spills are a proper coloring. -/
theorem Valid.proper {seen : List Nat} (h : Valid c g seen ch) (hall : ∀ a < g.nodes.size, a ∈ seen)
    (hspills : ch.spills = []) (hnodup : c.palette.Nodup) (hvars : g.nodes.vars.Nodup) :
    Proper c g (assignment c g.nodes ch) := by
  constructor
  · intro v hv
    obtain ⟨a, ha⟩ := Nodes.id?_var_of_mem hv
    obtain ⟨x, r, hx, hr⟩ :=
      h.color_var hall hspills (Nodes.operand?_eq_var.mp (Nodes.operand?_of_id? ha))
    exact ⟨r, by rw [lookup_assignment hvars, ha, Option.bind_some, hx, Option.bind_some, hr]⟩
  · intro v r hr
    rw [lookup_assignment hvars] at hr
    obtain ⟨a, _, hr⟩ := Option.bind_eq_some_iff.mp hr
    obtain ⟨color, _, hr⟩ := Option.bind_eq_some_iff.mp hr
    exact List.mem_of_getElem? hr
  · intro v y hedge heq
    unfold Graph.interfere at hedge
    split at hedge
    · rename_i a b ha hb
      have hva := Nodes.operand?_of_id? ha
      obtain ⟨r, hr, hcolor⟩ := h.register hall hspills hvars hnodup hva
      obtain ⟨s, hs, hcolor'⟩ := h.register hall hspills hvars hnodup (Nodes.operand?_of_id? hb)
      -- one register has one color
      rw [hr, hs] at heq
      cases heq
      exact h.color_ne hall hspills (Nodes.operand?_eq_var.mp hva) hedge (hcolor.symm.trans hcolor')
    · cases hedge

/-- A graph with as many registers as the palette is colored, or the variables that found no color
are spilled, in the order of their names. -/
theorem color_eq (h : g.nodes.regs.length = c.size) : color c g =
    .ok (if (choices c g).spills.isEmpty then colored (assignment c g.nodes (choices c g))
      else spilled (Interference.byName (choices c g).spills)) := by
  unfold color
  rw [if_neg fun hne => hne h]
  rfl

theorem color_eq_ok {r : Coloring} (h : color c g = .ok r) :
    r = if (choices c g).spills.isEmpty then colored (assignment c g.nodes (choices c g))
      else spilled (Interference.byName (choices c g).spills) := by
  by_cases hsize : g.nodes.regs.length = c.size
  · rw [color_eq hsize] at h
    exact (Except.ok.inj h).symm
  · unfold color at h
    rw [if_pos hsize] at h
    cases h

theorem color_isOk (h : g.nodes.regs = c.palette) : ∃ r, color c g = .ok r :=
  ⟨_, color_eq (congrArg List.length h)⟩

/-- A coloring comes from choices without spills. -/
theorem color_eq_colored {a : Assignment} (h : color c g = .ok (.colored a)) :
    (choices c g).spills = [] ∧ a = assignment c g.nodes (choices c g) := by
  have hr := color_eq_ok h
  split at hr
  · rename_i hempty
    cases hr
    exact ⟨List.isEmpty_iff.mp hempty, rfl⟩
  · cases hr

/-- Spilled variables are those that found no color, in the order of their names. -/
theorem color_eq_spilled {vs : List Var} (h : color c g = .ok (.spilled vs)) :
    (choices c g).spills ≠ [] ∧ vs = Interference.byName (choices c g).spills := by
  have hr := color_eq_ok h
  split at hr
  · cases hr
  · rename_i hne
    cases hr
    exact ⟨fun hnil => hne (List.isEmpty_iff.mpr hnil), rfl⟩

/-- A coloring gives every variable of the graph a register that no neighbor has. -/
theorem color_colored {a : Assignment} (hg : g.Simple) (hnodup : c.palette.Nodup)
    (hvars : g.nodes.vars.Nodup) (h : color c g = .ok (.colored a)) : Proper c g a := by
  obtain ⟨hspills, rfl⟩ := color_eq_colored h
  exact (valid_choices c hg).proper (fun a ha => mem_reverse_turns c.size hg ha) hspills hnodup
    hvars

/-- Spilled variables are variables of the graph, and there is one if there is no coloring. -/
theorem color_spilled {vs : List Var} (hg : g.Simple) (h : color c g = .ok (.spilled vs)) :
    vs ≠ [] ∧ ∀ v ∈ vs, v ∈ g.nodes.vars := by
  obtain ⟨hne, rfl⟩ := color_eq_spilled h
  constructor
  · intro hnil
    have hperm := ordered_perm (fun v w : Var => decide (v.name ≤ w.name)) (choices c g).spills
    rw [← Interference.byName, hnil] at hperm
    exact hne hperm.symm.eq_nil
  · exact fun v hv => (valid_choices c hg).spills v (mem_ordered.mp hv)

end Coloring

end Spillway
