import Spillway.Proofs.Convention
import Spillway.Proofs.Interference.Edges

/-!
# The rules of interference

The interference graph of a function has exactly the edges that four rules ask for
(`Interference.Rule`), in either direction: registers are kept apart, and so are nodes that are live
at once, nodes of which one is defined while the other one is needed later, unless it is a copy of
it, and variables that count shifts and the registers that cannot hold a count. Every function
whose jumps have targets has such a graph (`build_hasEdge_iff`).

Building the graph adds the edges of one instruction after the other, by the ids of nodes. The rules
speak of places and operands of the function, and of the tables of its liveness.
-/

namespace Spillway

namespace Interference

variable {c : Convention} {f : Func} {live : Liveness} {g : Interference} {a b : Nat}

/-- Why the nodes `a` and `b` of a function must not share a register. -/
inductive Rule (c : Convention) (f : Func) (live : Liveness) (a b : Nat) : Prop
  /-- Both are registers. -/
  | registers {r s : Reg} : live.nodes.operand? a = some (.reg r) →
      live.nodes.operand? b = some (.reg s) → Rule c f live a b
  /-- Both are live before the instruction at `n`. -/
  | live {n : Nat} : a ∈ (Liveness.row live.rows n).before →
      b ∈ (Liveness.row live.rows n).before → Rule c f live a b
  /-- The instruction at `n` defines one while the other is live after it, and does not move the
  other one to it. -/
  | defined {n : Nat} : a ∈ (Liveness.row live.rows n).kill →
      b ∈ (Liveness.row live.rows n).after →
      (∀ x y, live.nodes.operand? a = some x → live.nodes.operand? b = some y →
        f.code[n]? ≠ some (.mov x y)) → Rule c f live a b
  /-- One is a variable that counts a shift, and the other a register of the palette that does not
  hold counts. -/
  | shift {op : Op} {dst : Operand} {v : Var} {r : Reg} : .shift op dst (.var v) ∈ f.code →
      live.nodes.operand? a = some (.var v) → r ∈ c.palette → r ≠ c.shiftCount →
      live.nodes.operand? b = some (.reg r) → Rule c f live a b

/-! ## Ids and operands -/

/-- Where the stack pointer is no node, ids and operands of nodes belong together. -/
theorem id?_iff_operand? (hlive : Liveness.Solution c f live) (hrsp : Reg.rsp ∉ c.palette)
    {x : Operand} : live.nodes.id? x = some a ↔ live.nodes.operand? a = some x := by
  constructor
  · exact Nodes.operand?_of_id?
  · apply Nodes.id?_of_operand?
    · rw [hlive.nodes]
      exact nodup_eraseDups _
    · rw [hlive.nodes, List.mem_eraseDups]
      exact hrsp
    · rw [hlive.nodes]
      exact f.nodup_vars

section
variable (hlive : Liveness.Solution c f live) (hrsp : Reg.rsp ∉ c.palette)

include hlive hrsp in
/-- An instruction moves one node to another if it is a move between their operands. -/
theorem move?_eq_some_iff {n : Nat} {i : Instr} (hi : f.code[n]? = some i) :
    move? live.nodes i = some (a, b) ↔
      ∃ x y, live.nodes.operand? a = some x ∧ live.nodes.operand? b = some y ∧
        f.code[n]? = some (.mov x y) := by
  constructor
  · intro h
    obtain ⟨x, y, rfl, hx, hy⟩ := move?_eq_some h
    exact ⟨x, y, Nodes.operand?_of_id? hx, Nodes.operand?_of_id? hy, hi⟩
  · rintro ⟨x, y, hx, hy, hmov⟩
    cases hi.symm.trans hmov
    simp only [move?, (id?_iff_operand? hlive hrsp).mpr hx, (id?_iff_operand? hlive hrsp).mpr hy]

/-! ## One instruction after the other -/

include hlive hrsp in
/-- What an instruction keeps apart, the rules keep apart. -/
theorem rule_of_apart {n : Nat} {i : Instr} (hi : f.code[n]? = some i)
    (h : Apart c live.nodes i (Liveness.row live.rows n) a b) : Rule c f live a b := by
  cases h with
  | live ha hb => exact .live ha hb
  | defined ha hb hmove =>
      refine .defined ha hb ?_
      intro x y hx hy hmov
      exact hmove ((move?_eq_some_iff hlive hrsp hi).mpr ⟨x, y, hx, hy, hmov⟩)
  | shift hv ha hr hne hb =>
      obtain ⟨op, dst, rfl⟩ := shiftVar?_eq_some.mp hv
      exact .shift (List.mem_of_getElem? hi) (Nodes.operand?_of_id? ha) hr hne
        (Nodes.operand?_of_id? hb)

include hlive hrsp in
/-- What the rules keep apart are registers, or some instruction keeps it apart. -/
theorem apart_of_rule (h : Rule c f live a b) :
    (a < live.nodes.regs.length ∧ b < live.nodes.regs.length) ∨
      ∃ n i, f.code[n]? = some i ∧ Apart c live.nodes i (Liveness.row live.rows n) a b := by
  -- past the end of the code nothing is listed
  have hplace : ∀ {n : Nat}, n < live.rows.size → ∃ i, f.code[n]? = some i := by
    intro n hn
    rw [hlive.size] at hn
    exact ⟨_, List.getElem?_eq_getElem hn⟩
  cases h with
  | registers ha hb =>
      exact .inl ⟨Nodes.lt_length_regs_iff.mpr ⟨_, ha⟩, Nodes.lt_length_regs_iff.mpr ⟨_, hb⟩⟩
  | @live n ha hb =>
      obtain ⟨i, hi⟩ := hplace (Liveness.lt_size_of_mem_before ha)
      exact .inr ⟨n, i, hi, .live ha hb⟩
  | @defined n ha hb hmove =>
      have hn : n < live.rows.size := by
        refine Nat.lt_of_not_le fun hle => ?_
        rw [Liveness.row_eq_default hle] at ha
        exact BitSet.not_mem_empty a ha
      obtain ⟨i, hi⟩ := hplace hn
      refine .inr ⟨n, i, hi, .defined ha hb ?_⟩
      intro h
      obtain ⟨x, y, hx, hy, hmov⟩ := (move?_eq_some_iff hlive hrsp hi).mp h
      exact hmove x y hx hy hmov
  | shift hmem ha hr hne hb =>
      obtain ⟨n, hn⟩ := List.getElem?_of_mem hmem
      exact .inr ⟨n, _, hn, .shift rfl ((id?_iff_operand? hlive hrsp).mpr ha) hr hne
        ((id?_iff_operand? hlive hrsp).mpr hb)⟩

end

/-- The interference graph of a function joins two nodes exactly if they differ and a rule keeps
them apart. -/
theorem build_hasEdge_iff (hc : c.check = .ok ()) (hsp : c.stackPointer = Reg.rsp)
    (hf : f.isComplete = true) (hres : f.Resolves) :
    ∃ live g, Liveness.analyze c f = .ok live ∧ build c f live = .ok g ∧
      ∀ a b, g.graph.hasEdge a b = true ↔
        a ≠ b ∧ (Rule c f live a b ∨ Rule c f live b a) := by
  have hacc := Convention.check_eq_ok_iff.mp hc
  have hrsp : Reg.rsp ∉ c.palette := hsp ▸ hacc.stackPointer
  obtain ⟨live, hanalyze⟩ := Liveness.analyze_isOk c hf hres
  have hlive := Liveness.analyze_solution hanalyze
  obtain ⟨g, hbuild⟩ := build_isOk hlive hrsp
  refine ⟨live, g, hanalyze, hbuild, ?_⟩
  intro a b
  rw [hasEdge_build hlive hbuild]
  refine and_congr_right fun _ => ?_
  constructor
  · rintro (⟨ha, hb⟩ | ⟨n, i, hi, hab | hba⟩)
    · obtain ⟨r, hr⟩ := Nodes.lt_length_regs_iff.mp ha
      obtain ⟨s, hs⟩ := Nodes.lt_length_regs_iff.mp hb
      exact .inl (.registers hr hs)
    · exact .inl (rule_of_apart hlive hrsp hi hab)
    · exact .inr (rule_of_apart hlive hrsp hi hba)
  · rintro (hab | hba)
    · exact (apart_of_rule hlive hrsp hab).imp id fun ⟨n, i, hi, h⟩ => ⟨n, i, hi, .inl h⟩
    · exact (apart_of_rule hlive hrsp hba).imp And.symm fun ⟨n, i, hi, h⟩ => ⟨n, i, hi, .inr h⟩

/-- A shift that is counted by a variable, which is copied before. -/
def counting : Func where
  name := ⟨"counting"⟩
  args := 1
  locals := 0
  code := [
    .mov (.var ⟨"y"⟩) (.reg .rdi), .mov (.var ⟨"x"⟩) (.var ⟨"y"⟩),
    .shift .shl (.reg .rax) (.var ⟨"y"⟩), .ret]

/-- The count interferes with `rax`, and not with its copy, although the copy is made while the
count is still needed. -/
theorem build_hasEdge_iff_counting :
    Convention.systemV.check = .ok () ∧ counting.isComplete = true ∧ counting.Resolves ∧
      ∃ live g, Liveness.analyze .systemV counting = .ok live ∧
        build .systemV counting live = .ok g ∧
        live.nodes.id? (.var ⟨"y"⟩) = some 15 ∧ live.nodes.id? (.var ⟨"x"⟩) = some 16 ∧
        live.nodes.id? (.reg .rax) = some 4 ∧
        (Rule .systemV counting live 15 4 ∨ Rule .systemV counting live 4 15) ∧
        16 ∈ (Liveness.row live.rows 1).kill ∧ 15 ∈ (Liveness.row live.rows 1).after ∧
        ¬ Rule .systemV counting live 16 15 := by
  have hc : Convention.systemV.check = .ok () := toOption_eq_some.mp (by decide)
  have hf : counting.isComplete = true := by decide
  have hres : counting.Resolves := by decide
  have hsome : (Liveness.analyze .systemV counting >>= fun live =>
      build .systemV counting live >>= fun g => .ok (
        (live.nodes.id? (.var ⟨"y"⟩), live.nodes.id? (.var ⟨"x"⟩), live.nodes.id? (.reg .rax)),
        (Liveness.row live.rows 1).kill.contains 16, (Liveness.row live.rows 1).after.contains 15,
        g.graph.hasEdge 15 4, g.graph.hasEdge 16 15)).toOption =
      some ((some 15, some 16, some 4), true, true, true, false) := by
    decide +kernel
  obtain ⟨live, g, hlive, hg, hedge⟩ := build_hasEdge_iff hc rfl hf hres
  rw [hlive, ok_bind, hg, ok_bind] at hsome
  simp only [Except.toOption, Option.some.injEq, Prod.mk.injEq] at hsome
  obtain ⟨⟨hy, hx, hrax⟩, hkill, hafter, hjoined, hfree⟩ := hsome
  refine ⟨hc, hf, hres, live, g, hlive, hg, hy, hx, hrax, ((hedge 15 4).mp hjoined).2, hkill,
    hafter, ?_⟩
  intro hrule
  rw [(hedge 16 15).mpr ⟨by decide, .inl hrule⟩] at hfree
  cases hfree

end Interference

end Spillway
