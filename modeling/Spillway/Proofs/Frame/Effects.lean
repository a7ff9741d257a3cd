import Spillway.BitSet.Lemmas
import Spillway.Proofs.Frame.SpilledLiveness

/-!
# Effects and spilling

Several parts of the allocator ask what an instruction does to a variable, and each has a table of
its own. Liveness has the sets of nodes that an instruction uses and defines. Spilling asks whether
the variable occurs at all, whether it is read, so that a load is due before, and whether it is the
destination, so that a store is due after. If the tables disagreed for a single form of instruction,
a load or a store would be missing.

They agree (`Effect.exists_agreesOn`): a variable is used exactly if it is read, it is defined
exactly if it is the destination, and it occurs exactly if it is used or defined. An instruction
that works on the slot instead uses and defines the same nodes but for the variable.
-/

namespace Spillway

variable {c : Convention} {u : Nodes} {i j : Instr} {v : Var} {k : Nat}

/-! ## Operands and their roles -/

/-- Whatever variable stands in an instruction is used or defined. -/
theorem Instr.references_iff_mem_uses_or_defs :
    i.references (.var v) = true ↔ .var v ∈ i.uses c ∨ .var v ∈ i.defs c := by
  rw [references_var]
  constructor
  · intro h
    cases i <;> grind [slots, uses, defs]
  · rintro (huse | hdef)
    · exact mem_slots_of_uses huse
    · exact mem_slots_of_defs hdef

theorem Folded.ne_hole (h : Folded v i j) : j ≠ .hole := by
  cases h <;> simp

/-! ## Sets of nodes -/

/-- Taking one variable off a list of operands takes its id off the set of their nodes. The stack
pointer may be put in its place, since it is no node. -/
theorem Nodes.setOf_equal_erase {xs ys : List Operand} (hid : u.id? (.var v) = some k)
    (h : ∀ x, x ≠ .rsp → (x ∈ ys ↔ x ∈ xs ∧ x ≠ .var v)) :
    (u.setOf ys).equal ((u.setOf xs).erase k) = true := by
  refine BitSet.equal_iff.mpr fun n => ?_
  have herase : n ∈ (u.setOf xs).erase k ↔ n ∈ u.setOf xs ∧ k ≠ n := by
    simp [BitSet.mem_iff]
  rw [herase, mem_setOf, mem_setOf]
  constructor
  · rintro ⟨x, hx, hn⟩
    obtain ⟨hmem, hne⟩ := (h x (ne_rsp_of_id? hn)).mp hx
    refine ⟨⟨x, hmem, hn⟩, ?_⟩
    rintro rfl
    exact hne (id?_inj hn hid)
  · rintro ⟨⟨x, hx, hn⟩, hkn⟩
    refine ⟨x, (h x (ne_rsp_of_id? hn)).mpr ⟨hx, ?_⟩, hn⟩
    rintro rfl
    exact hkn (Option.some.inj (hid.symm.trans hn))

namespace Effect

theorem of?_of_ne_hole (c : Convention) (u : Nodes) (h : i ≠ .hole) : of? c u i = .ok (of c u i) := by
  rw [of?, Instr.present, if_neg h]
  rfl

/-- All tables agree on what an instruction `i` with the effect `e` does to the variable `v`, whose
id is `k`. -/
structure AgreesOn (c : Convention) (u : Nodes) (i : Instr) (e : Effect) (v : Var) (k : Nat) :
    Prop where
  gen_iff : k ∈ e.gen ↔ i.reads v = true
  kill_iff : k ∈ e.kill ↔ i.dest? = some (.var v)
  references_iff : i.references (.var v) = true ↔ k ∈ e.gen ∨ k ∈ e.kill
  /-- The instruction that works on the slot has no effect on the variable, and the same on all
  other nodes. -/
  inSlot : ∀ j, i.inSlot? v = some j → ∃ e', of? c u j = .ok e' ∧
    e'.gen.equal (e.gen.erase k) = true ∧ e'.kill.equal (e.kill.erase k) = true

/-- Every instruction that is there has an effect, and all tables agree on what it does to each of
the variables that have an id. -/
theorem exists_agreesOn (c : Convention) (hi : i ≠ .hole) (hv : v ∈ u.vars) :
    ∃ e k, of? c u i = .ok e ∧ u.id? (.var v) = some k ∧ AgreesOn c u i e v k := by
  obtain ⟨k, hid⟩ := Nodes.id?_var_of_mem hv
  have hgen : k ∈ (of c u i).gen ↔ .var v ∈ i.uses c := Nodes.mem_setOf_of_id? hid
  have hkill : k ∈ (of c u i).kill ↔ .var v ∈ i.defs c := Nodes.mem_setOf_of_id? hid
  refine ⟨of c u i, k, of?_of_ne_hole c u hi, hid, ?_, ?_, ?_, ?_⟩
  · rw [hgen, Instr.reads_iff_mem_uses]
  · rw [hkill, ← Instr.writes_iff_mem_defs, Instr.writes, decide_eq_true_iff]
  · rw [hgen, hkill, Instr.references_iff_mem_uses_or_defs]
  · intro j hj
    have hfolded := Instr.folded_of_inSlot? hj
    refine ⟨of c u j, of?_of_ne_hole c u hfolded.ne_hole, ?_, ?_⟩
    · exact Nodes.setOf_equal_erase hid fun x hx => hfolded.mem_uses_iff hx
    · exact Nodes.setOf_equal_erase hid fun x _ => hfolded.mem_defs_iff

/-- In an addition the destination is read and written, and the other operand is read. That one
can stay in a slot, and then only the destination is left. -/
theorem exists_agreesOn_adding :
    ∃ u i j e e', u = Nodes.mk [.rcx, .rax] [⟨"x"⟩, ⟨"y"⟩] ∧
      i = .arith .add (.var ⟨"x"⟩) (.var ⟨"y"⟩) ∧ j = .arithLoad .add (.var ⟨"x"⟩) .rsp 0 ∧
      of? .systemV u i = .ok e ∧ 2 ∈ e.gen ∧ 2 ∈ e.kill ∧ 3 ∈ e.gen ∧ 3 ∉ e.kill ∧
      i.inSlot? ⟨"y"⟩ = some j ∧ of? .systemV u j = .ok e' ∧
      e'.gen.equal (e.gen.erase 3) = true ∧ e'.kill.equal (e.kill.erase 3) = true := by
  let u : Nodes := ⟨[.rcx, .rax], [⟨"x"⟩, ⟨"y"⟩]⟩
  let i : Instr := .arith .add (.var ⟨"x"⟩) (.var ⟨"y"⟩)
  have hi : i ≠ .hole := by decide
  have hx : (⟨"x"⟩ : Var) ∈ u.vars := by decide
  have hy : (⟨"y"⟩ : Var) ∈ u.vars := by decide
  obtain ⟨e, k, he, hk, hagree⟩ := exists_agreesOn .systemV hi hx
  obtain ⟨d, l, hd, hl, hagree'⟩ := exists_agreesOn .systemV hi hy
  cases he.symm.trans hd
  obtain rfl : 2 = k := Option.some.inj hk
  obtain rfl : 3 = l := Option.some.inj hl
  obtain ⟨e', he', hgen, hkill⟩ := hagree'.inSlot (.arithLoad .add (.var ⟨"x"⟩) .rsp 0) (by decide)
  refine ⟨u, i, _, e, e', rfl, rfl, rfl, he, ?_, ?_, ?_, ?_, by decide, he', hgen, hkill⟩
  · exact hagree.gen_iff.mpr (by decide)
  · exact hagree.kill_iff.mpr rfl
  · exact hagree'.gen_iff.mpr (by decide)
  · exact fun h => absurd (hagree'.kill_iff.mp h) (by decide)

end Effect

end Spillway
