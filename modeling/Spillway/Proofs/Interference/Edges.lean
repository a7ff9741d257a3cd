import Spillway.Interference.Basic
import Spillway.Proofs.Liveness.Fixpoint

/-!
# Edges of the interference graph

Which nodes an instruction keeps apart is a relation of its own (`Interference.Apart`), and the
graph has an edge exactly where two different nodes are registers or are kept apart by some
instruction (`hasEdge_build`). Building the graph succeeds for the tables of the function itself
(`build_isOk`).
-/

namespace Spillway

/-- A graph whose edges go both ways and join two different nodes. -/
structure Graph.Simple (g : Graph) : Prop where
  size : g.size = g.nodes.size
  symm : ∀ {a b : Nat}, g.hasEdge a b = true → g.hasEdge b a = true
  irrefl : ∀ a : Nat, g.hasEdge a a = false

namespace Graph

/-- Two nodes are joined if they are different and one of the pairs, in either order. -/
theorem hasEdge_addEdges_empty {u : Nodes} {es : List (Nat × Nat)}
    (hes : ∀ e ∈ es, e.1 < u.size ∧ e.2 < u.size) (a b : Nat) :
    ((empty u).addEdges es).hasEdge a b = true ↔ a ≠ b ∧ ((a, b) ∈ es ∨ (b, a) ∈ es) := by
  rw [hasEdge_addEdges (by simpa using hes), hasEdge_empty]
  simp

/-- A graph is simple whatever edges it is made of. -/
theorem simple_addEdges {u : Nodes} {es : List (Nat × Nat)}
    (hes : ∀ e ∈ es, e.1 < u.size ∧ e.2 < u.size) : ((empty u).addEdges es).Simple := by
  have hedge := hasEdge_addEdges_empty hes
  refine ⟨by rw [size_addEdges, nodes_addEdges, size_empty]; rfl, fun {a b} hab => ?_, fun a => ?_⟩
  · obtain ⟨hne, hmem⟩ := (hedge a b).mp hab
    exact (hedge b a).mpr ⟨hne.symm, hmem.symm⟩
  · rw [Bool.eq_false_iff]
    exact fun haa => ((hedge a a).mp haa).1 rfl

/-- The ends of an edge are nodes. -/
theorem Simple.lt_of_hasEdge {g : Graph} (hg : g.Simple) {a b : Nat} (h : g.hasEdge a b = true) :
    a < g.nodes.size ∧ b < g.nodes.size := by
  have hlt : ∀ {a b : Nat}, g.hasEdge a b = true → a < g.nodes.size := by
    intro a b hab
    rw [← hg.size]
    refine Nat.lt_of_not_le fun hle => ?_
    have hout : g.adj[a]? = none := Array.getElem?_eq_none hle
    simp [hasEdge, neighbors, Array.getD_eq_getD_getElem?, hout] at hab
  exact ⟨hlt h, hlt (hg.symm h)⟩

end Graph

namespace Interference

variable {c : Convention} {u : Nodes} {i : Instr} {row : Row} {a b : Nat}

theorem mem_pairs {ids : List Nat} : (a, b) ∈ pairs ids ↔ a ∈ ids ∧ b ∈ ids ∧ a < b := by
  simp only [pairs, List.mem_flatMap, List.mem_map, List.mem_filter, decide_eq_true_eq,
    Prod.mk.injEq]
  constructor
  · rintro ⟨x, hx, y, ⟨hy, hlt⟩, rfl, rfl⟩
    exact ⟨hx, hy, hlt⟩
  · rintro ⟨ha, hb, hlt⟩
    exact ⟨a, ha, b, ⟨hb, hlt⟩, rfl, rfl⟩

/-- An instruction, with what is known of it, asks for an edge from `a` to `b`. -/
inductive Apart (c : Convention) (u : Nodes) (i : Instr) (row : Row) (a b : Nat) : Prop
  /-- Both are live before it. -/
  | live : a ∈ row.before → b ∈ row.before → Apart c u i row a b
  /-- It defines one while the other is live after it, and is no move between them. -/
  | defined : a ∈ row.kill → b ∈ row.after → move? u i ≠ some (a, b) → Apart c u i row a b
  /-- One counts a shift and the other is a register that does not hold shift counts. -/
  | shift {v : Var} {r : Reg} : shiftVar? i = some v → u.id? (.var v) = some a → r ∈ c.palette →
      r ≠ c.shiftCount → u.id? (.reg r) = some b → Apart c u i row a b

theorem mem_defEdges :
    (a, b) ∈ defEdges u i row ↔ a ∈ row.kill ∧ b ∈ row.after ∧ move? u i ≠ some (a, b) := by
  simp only [defEdges, List.mem_filter, List.mem_flatMap, List.mem_map, BitSet.mem_toList,
    bne_iff_ne, Prod.mk.injEq]
  constructor
  · rintro ⟨⟨x, hx, y, hy, rfl, rfl⟩, hm⟩
    exact ⟨hx, hy, hm⟩
  · rintro ⟨ha, hb, hm⟩
    exact ⟨⟨a, ha, b, hb, rfl, rfl⟩, hm⟩

theorem mem_shiftEdges {v : Var} {es : List (Nat × Nat)} (h : shiftEdges c u v = .ok es) :
    (a, b) ∈ es ↔
      u.id? (.var v) = some a ∧ ∃ r ∈ c.palette, r ≠ c.shiftCount ∧ u.id? (.reg r) = some b := by
  unfold shiftEdges at h
  cases hv : u.id? (.var v) with
  | none => rw [hv] at h; cases h
  | some a' =>
      rw [hv] at h
      have hmap := mapM_eq_ok.mp h
      have hmem : (a, b) ∈ es ↔ Except.ok (a, b) ∈ es.map (Except.ok (ε := Error)) := by simp
      rw [hmem, ← hmap]
      simp only [List.mem_map, List.mem_filter, decide_eq_true_eq, Option.some.injEq]
      constructor
      · rintro ⟨r, ⟨hr, hne⟩, hb⟩
        cases hid : u.id? (.reg r) with
        | none => rw [hid] at hb; cases hb
        | some b' =>
            rw [hid] at hb
            cases hb
            exact ⟨rfl, r, hr, hne, hid⟩
      · rintro ⟨rfl, r, hr, hne, hb⟩
        exact ⟨r, ⟨hr, hne⟩, by rw [hb]; rfl⟩

/-- The edges of an instruction that shifts by a variable, and of any other. -/
theorem instrEdges_eq : instrEdges c u i row =
    (match shiftVar? i with
      | some v => shiftEdges c u v
      | none => .ok []) >>= fun shift =>
        .ok (pairs row.before.toList ++ defEdges u i row ++ shift) := by
  unfold instrEdges
  cases shiftVar? i <;> rfl

theorem instrEdges_eq_ok {es : List (Nat × Nat)} (h : instrEdges c u i row = .ok es) :
    ∃ shift, es = pairs row.before.toList ++ defEdges u i row ++ shift ∧
      ∀ x y, (x, y) ∈ shift ↔ ∃ v, shiftVar? i = some v ∧ u.id? (.var v) = some x ∧
        ∃ r ∈ c.palette, r ≠ c.shiftCount ∧ u.id? (.reg r) = some y := by
  rw [instrEdges_eq] at h
  obtain ⟨shift, hshift, h⟩ := bind_eq_ok.mp h
  cases h
  refine ⟨shift, rfl, fun x y => ?_⟩
  cases hv : shiftVar? i with
  | none =>
      rw [hv] at hshift
      cases hshift
      simp
  | some v =>
      rw [hv] at hshift
      rw [mem_shiftEdges hshift]
      simp

theorem apart_of_mem {es : List (Nat × Nat)} (h : instrEdges c u i row = .ok es)
    (hab : (a, b) ∈ es) : Apart c u i row a b := by
  obtain ⟨shift, rfl, hshift⟩ := instrEdges_eq_ok h
  rcases List.mem_append.mp hab with hab | hab
  · rcases List.mem_append.mp hab with hab | hab
    · obtain ⟨ha, hb, _⟩ := mem_pairs.mp hab
      exact .live (BitSet.mem_toList.mp ha) (BitSet.mem_toList.mp hb)
    · obtain ⟨ha, hb, hm⟩ := mem_defEdges.mp hab
      exact .defined ha hb hm
  · obtain ⟨v, hv, ha, r, hr, hne, hb⟩ := (hshift a b).mp hab
    exact .shift hv ha hr hne hb

theorem mem_of_apart {es : List (Nat × Nat)} (h : instrEdges c u i row = .ok es) (hab : a ≠ b)
    (hap : Apart c u i row a b) : (a, b) ∈ es ∨ (b, a) ∈ es := by
  obtain ⟨shift, rfl, hshift⟩ := instrEdges_eq_ok h
  simp only [List.mem_append]
  cases hap with
  | live ha hb =>
      rw [← BitSet.mem_toList] at ha hb
      rcases Nat.lt_or_gt_of_ne hab with hlt | hlt
      · exact .inl (.inl (.inl (mem_pairs.mpr ⟨ha, hb, hlt⟩)))
      · exact .inr (.inl (.inl (mem_pairs.mpr ⟨hb, ha, hlt⟩)))
  | defined ha hb hm => exact .inl (.inl (.inr (mem_defEdges.mpr ⟨ha, hb, hm⟩)))
  | shift hv ha hr hne hb => exact .inl (.inr ((hshift a b).mpr ⟨_, hv, ha, _, hr, hne, hb⟩))

/-- The edges of an instruction join exactly the nodes that it keeps apart. -/
theorem mem_instrEdges {es : List (Nat × Nat)} (h : instrEdges c u i row = .ok es) (hab : a ≠ b) :
    ((a, b) ∈ es ∨ (b, a) ∈ es) ↔ (Apart c u i row a b ∨ Apart c u i row b a) := by
  constructor
  · exact Or.imp (apart_of_mem h) (apart_of_mem h)
  · rintro (hap | hap)
    · exact mem_of_apart h hab hap
    · exact (mem_of_apart h hab.symm hap).symm

/-! ## The graph of a function -/

variable {f : Func} {live : Liveness} {g : Interference}

/-- The nodes that an instruction keeps apart are nodes. -/
theorem Apart.lt {n : Nat} (hlive : Liveness.Solution c f live) (hi : f.code[n]? = some i)
    (h : Apart c live.nodes i (Liveness.row live.rows n) a b) :
    a < live.nodes.size ∧ b < live.nodes.size := by
  have hbound := hlive.bounded n
  cases h with
  | live ha hb => exact ⟨hbound.2.1 a ha, hbound.2.1 b hb⟩
  | defined ha hb _ =>
      rw [hlive.kill hi] at ha
      obtain ⟨x, _, hx⟩ := Nodes.mem_setOf.mp ha
      exact ⟨Nodes.id?_lt hx, hbound.2.2 b hb⟩
  | shift _ ha _ _ hb => exact ⟨Nodes.id?_lt ha, Nodes.id?_lt hb⟩

/-- The instructions of a function with their rows. -/
theorem mem_zip_rows (hsize : live.rows.size = f.code.length) :
    (i, row) ∈ f.code.zip live.rows.toList ↔
      ∃ n, f.code[n]? = some i ∧ Liveness.row live.rows n = row := by
  rw [List.mem_iff_getElem?]
  refine exists_congr fun n => ?_
  rw [List.getElem?_zip_eq_some]
  refine and_congr_right fun hi => ?_
  have hn : n < live.rows.size := by
    rw [hsize]
    exact (List.getElem?_eq_some_iff.mp hi).1
  simp [Liveness.row, Array.getD_eq_getD_getElem?, hn]

theorem build_eq (hsize : live.rows.size = f.code.length) : build c f live =
    (f.code.zip live.rows.toList).mapM (fun p => instrEdges c live.nodes p.1 p.2) >>= fun edges =>
      .ok {
        graph := (Graph.empty live.nodes).addEdges
          (pairs (List.range live.nodes.regs.length) ++ edges.flatten)
        shiftCoalesced := coalesced c live.nodes f.code } := by
  unfold build
  have hlen : ¬ live.rows.toList.length ≠ f.code.length := by simpa using hsize
  simp only [if_neg hlen]
  rfl

section
variable {edges : List (List (Nat × Nat))} (hsize : live.rows.size = f.code.length)
  (hedges : (f.code.zip live.rows.toList).mapM (fun p => instrEdges c live.nodes p.1 p.2) =
    .ok edges)

include hsize hedges in
/-- Every edge comes from an instruction, and every instruction gives its edges. -/
theorem mem_edges {es : List (Nat × Nat)} (hes : es ∈ edges) :
    ∃ n i, f.code[n]? = some i ∧
      instrEdges c live.nodes i (Liveness.row live.rows n) = .ok es := by
  have hok : Except.ok es ∈ edges.map (Except.ok (ε := Error)) := List.mem_map_of_mem hes
  rw [← mapM_eq_ok.mp hedges] at hok
  obtain ⟨⟨i, row⟩, hmem, he⟩ := List.mem_map.mp hok
  obtain ⟨n, hi, rfl⟩ := (mem_zip_rows hsize).mp hmem
  exact ⟨n, i, hi, he⟩

include hsize hedges in
theorem exists_mem_edges {n : Nat} (hi : f.code[n]? = some i) :
    ∃ es ∈ edges, instrEdges c live.nodes i (Liveness.row live.rows n) = .ok es := by
  have hzip : (i, Liveness.row live.rows n) ∈ f.code.zip live.rows.toList :=
    (mem_zip_rows hsize).mpr ⟨n, hi, rfl⟩
  have hin := List.mem_map_of_mem
    (f := fun p : Instr × Row => instrEdges c live.nodes p.1 p.2) hzip
  rw [mapM_eq_ok.mp hedges] at hin
  obtain ⟨es, hes, he⟩ := List.mem_map.mp hin
  exact ⟨es, hes, he.symm⟩

include hsize hedges in
theorem mem_flatten_edges (hab : a ≠ b) :
    ((a, b) ∈ edges.flatten ∨ (b, a) ∈ edges.flatten) ↔
      ∃ n i, f.code[n]? = some i ∧
        (Apart c live.nodes i (Liveness.row live.rows n) a b ∨
          Apart c live.nodes i (Liveness.row live.rows n) b a) := by
  constructor
  · intro h
    have hes : ∃ es ∈ edges, (a, b) ∈ es ∨ (b, a) ∈ es := by
      rcases h with h | h
      · obtain ⟨es, hes, hin⟩ := List.mem_flatten.mp h
        exact ⟨es, hes, .inl hin⟩
      · obtain ⟨es, hes, hin⟩ := List.mem_flatten.mp h
        exact ⟨es, hes, .inr hin⟩
    obtain ⟨es, hes, hin⟩ := hes
    obtain ⟨n, i, hi, he⟩ := mem_edges hsize hedges hes
    exact ⟨n, i, hi, (mem_instrEdges he hab).mp hin⟩
  · rintro ⟨n, i, hi, hap⟩
    obtain ⟨es, hes, he⟩ := exists_mem_edges hsize hedges hi
    rcases (mem_instrEdges he hab).mpr hap with hin | hin
    · exact .inl (List.mem_flatten.mpr ⟨es, hes, hin⟩)
    · exact .inr (List.mem_flatten.mpr ⟨es, hes, hin⟩)

end

/-- The edges join nodes. -/
theorem bound_edges {edges : List (List (Nat × Nat))} (hlive : Liveness.Solution c f live)
    (hedges : (f.code.zip live.rows.toList).mapM (fun p => instrEdges c live.nodes p.1 p.2) =
      .ok edges) :
    ∀ e ∈ pairs (List.range live.nodes.regs.length) ++ edges.flatten,
      e.1 < live.nodes.size ∧ e.2 < live.nodes.size := by
  rintro ⟨x, y⟩ he
  rcases List.mem_append.mp he with he | he
  · obtain ⟨hx, hy, _⟩ := mem_pairs.mp he
    rw [List.mem_range] at hx hy
    unfold Nodes.size
    omega
  · obtain ⟨es, hes, hin⟩ := List.mem_flatten.mp he
    obtain ⟨n, i, hi, hok⟩ := mem_edges hlive.size hedges hes
    exact (apart_of_mem hok hin).lt hlive hi

/-- The edges of the graph: between registers, and where an instruction asks for one. -/
theorem hasEdge_build (hlive : Liveness.Solution c f live) (h : build c f live = .ok g) :
    g.graph.hasEdge a b = true ↔ a ≠ b ∧
      ((a < live.nodes.regs.length ∧ b < live.nodes.regs.length) ∨
        ∃ n i, f.code[n]? = some i ∧
          (Apart c live.nodes i (Liveness.row live.rows n) a b ∨
            Apart c live.nodes i (Liveness.row live.rows n) b a)) := by
  rw [build_eq hlive.size] at h
  obtain ⟨edges, hedges, h⟩ := bind_eq_ok.mp h
  cases h
  rw [Graph.hasEdge_addEdges_empty (bound_edges hlive hedges)]
  refine and_congr_right fun hab => ?_
  rw [← mem_flatten_edges hlive.size hedges hab]
  simp only [List.mem_append, mem_pairs, List.mem_range]
  grind

theorem nodes_build (hsize : live.rows.size = f.code.length) (h : build c f live = .ok g) :
    g.graph.nodes = live.nodes := by
  rw [build_eq hsize] at h
  obtain ⟨edges, hedges, h⟩ := bind_eq_ok.mp h
  cases h
  rw [Graph.nodes_addEdges]
  rfl

/-- Edges go both ways and never from a node to itself. -/
theorem simple_build (hlive : Liveness.Solution c f live) (h : build c f live = .ok g) :
    g.graph.Simple := by
  rw [build_eq hlive.size] at h
  obtain ⟨edges, hedges, h⟩ := bind_eq_ok.mp h
  cases h
  exact Graph.simple_addEdges (bound_edges hlive hedges)

theorem move?_eq_some (h : move? u i = some (a, b)) :
    ∃ dst src, i = .mov dst src ∧ u.id? dst = some a ∧ u.id? src = some b := by
  unfold move? at h
  split at h
  · split at h
    · rename_i hd hs
      cases h
      exact ⟨_, _, rfl, hd, hs⟩
    · cases h
  · cases h

/-- What an instruction defines has an edge to what is listed after it, unless the instruction moves
one to the other. -/
theorem hasEdge_of_mem_after (hlive : Liveness.Solution c f live) (h : build c f live = .ok g)
    {n : Nat} {d x : Operand} (hi : f.code[n]? = some i) (hd : d ∈ i.defs c)
    (ha : live.nodes.id? d = some a) (hb : live.nodes.id? x = some b)
    (hafter : b ∈ (Liveness.row live.rows n).after) :
    d = x ∨ i = .mov d x ∨ g.graph.hasEdge a b = true := by
  by_cases hab : a = b
  · exact .inl (Nodes.id?_inj ha (hab ▸ hb))
  · by_cases hmove : move? live.nodes i = some (a, b)
    · obtain ⟨dst, src, hmov, hdst, hsrc⟩ := move?_eq_some hmove
      rw [Nodes.id?_inj ha hdst, Nodes.id?_inj hb hsrc]
      exact .inr (.inl hmov)
    · have hap : Apart c live.nodes i (Liveness.row live.rows n) a b :=
        .defined ((hlive.mem_kill hi ha).mpr hd) hafter hmove
      exact .inr (.inr ((hasEdge_build hlive h).mpr ⟨hab, .inr ⟨n, i, hi, .inl hap⟩⟩))

/-! ## Success -/

theorem shiftVar?_eq_some {v : Var} :
    shiftVar? i = some v ↔ ∃ op dst, i = .shift op dst (.var v) := by
  constructor
  · intro h
    unfold shiftVar? at h
    split at h
    · cases h
      exact ⟨_, _, rfl⟩
    · cases h
  · rintro ⟨op, dst, rfl⟩
    rfl

theorem mem_slots_of_shiftVar? {v : Var} (h : shiftVar? i = some v) : .var v ∈ i.slots := by
  obtain ⟨op, dst, rfl⟩ := shiftVar?_eq_some.mp h
  simp [Instr.slots]

/-- A variable of the function can be kept in the register for shift counts when every register of
the palette is a node. -/
theorem shiftEdges_isOk {v : Var} (hv : ∃ a, u.id? (.var v) = some a)
    (hregs : ∀ r ∈ c.palette, ∃ a, u.id? (.reg r) = some a) :
    ∃ es, shiftEdges c u v = .ok es := by
  obtain ⟨a, ha⟩ := hv
  cases h : shiftEdges c u v with
  | ok es => exact ⟨es, rfl⟩
  | error e =>
      simp only [shiftEdges, ha] at h
      obtain ⟨r, hr, he⟩ := mapM_eq_error h
      obtain ⟨b, hb⟩ := hregs r (List.mem_filter.mp hr).1
      rw [hb] at he
      cases he

/-- Building the graph of a function from its own tables succeeds if no register of the palette is
the stack pointer. -/
theorem build_isOk (hlive : Liveness.Solution c f live) (hrsp : Reg.rsp ∉ c.palette) :
    ∃ g, build c f live = .ok g := by
  have hregs : ∀ r ∈ c.palette, ∃ a, live.nodes.id? (.reg r) = some a := by
    intro r hr
    refine Nodes.id?_reg_of_mem (fun e => hrsp (e ▸ hr)) ?_
    rw [hlive.nodes]
    exact List.mem_eraseDups.mpr hr
  cases h : build c f live with
  | ok g => exact ⟨g, rfl⟩
  | error e =>
      rw [build_eq hlive.size] at h
      rcases bind_eq_error.mp h with h | ⟨_, _, h⟩
      · obtain ⟨⟨i, row⟩, hmem, he⟩ := mapM_eq_error h
        rw [instrEdges_eq] at he
        rcases bind_eq_error.mp he with he | ⟨_, _, he⟩
        · cases hv : shiftVar? i with
          | none => rw [hv] at he; cases he
          | some v =>
              rw [hv] at he
              have hvars : v ∈ f.vars :=
                Func.mem_vars.mpr ⟨i, (List.of_mem_zip hmem).1, mem_slots_of_shiftVar? hv⟩
              have hid := Nodes.id?_var_of_mem (u := live.nodes) (by rw [hlive.nodes]; exact hvars)
              obtain ⟨es, hes⟩ := shiftEdges_isOk hid hregs
              exact absurd (hes.symm.trans he) (by simp)
        · cases he
      · cases h

end Interference

end Spillway
