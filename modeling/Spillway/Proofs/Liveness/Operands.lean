import Spillway.Proofs.Liveness.Exact

/-!
# The operands that the tables list

The tables of a function list ids. Which operand an id stands for depends on the function, so tables
of two functions are compared by the operands they list (`Liveness.liveBefore`,
`Liveness.liveAfter`). These are the operands that are live on some path, as far as a convention
tracks them (`Exact.mem_liveBefore`, `Exact.mem_liveAfter`): all variables, and the registers of the
palette but the stack pointer.
-/

namespace Spillway

variable {c : Convention} {f : Func} {live : Liveness} {i : Instr} {x : Operand} {v : Var}
  {n k : Nat}

/-! ## Variables on paths -/

theorem Instr.mem_slots_of_uses (h : .var v ∈ i.uses c) : .var v ∈ i.slots := by
  cases i <;> simp_all [uses, slots]

theorem Instr.mem_slots_of_defs (h : .var v ∈ i.defs c) : .var v ∈ i.slots := by
  cases i <;> simp_all [defs, slots]

/-- A variable that is live is one of the function. -/
theorem Live.mem_vars (h : Live c f n (.var v)) : v ∈ f.vars := by
  generalize hx : Operand.var v = x at h
  induction h with
  | @used n i x hi hu =>
      subst hx
      exact Func.mem_vars.mpr ⟨i, List.mem_of_getElem? hi, Instr.mem_slots_of_uses hu⟩
  | kept _ _ _ _ ih => exact ih hx

/-- Some place that may come after place `n` has `x` live. -/
def LiveAfter (c : Convention) (f : Func) (n : Nat) (x : Operand) : Prop :=
  ∃ i j, f.code[n]? = some i ∧ f.Next n i j ∧ Live c f j x

theorem LiveAfter.mem_vars (h : LiveAfter c f n (.var v)) : v ∈ f.vars := by
  obtain ⟨_, _, _, _, hlive⟩ := h
  exact hlive.mem_vars

/-- What is live before a place is used there, or live after it and not defined there. -/
theorem live_iff : Live c f n x ↔
    ∃ i, f.code[n]? = some i ∧ (x ∈ i.uses c ∨ (LiveAfter c f n x ∧ x ∉ i.defs c)) := by
  constructor
  · intro h
    cases h with
    | used hi hu => exact ⟨_, hi, .inl hu⟩
    | kept hi hnext hj hdef => exact ⟨_, hi, .inr ⟨⟨_, _, hi, hnext, hj⟩, hdef⟩⟩
  · rintro ⟨i, hi, hu | ⟨⟨i', j, hi', hnext, hj⟩, hdef⟩⟩
    · exact .used hi hu
    · cases hi.symm.trans hi'
      exact .kept hi hnext hj hdef

/-! ## New names -/

section
variable {ρ : Operand → Operand} (hρ : ∀ r, ρ (.reg r) = .reg r)

namespace Instr

include hρ in
theorem map_regs (rs : List Reg) : (rs.map Operand.reg).map ρ = rs.map Operand.reg := by
  rw [List.map_map]
  exact List.map_congr_left fun r _ => hρ r

include hρ in
theorem uses_mapOperands (i : Instr) : (i.mapOperands ρ).uses c = (i.uses c).map ρ := by
  cases i with
  | ret => exact (map_regs hρ c.exit).symm
  | call callee args =>
      show (c.callArgs args).map Operand.reg ++ [ρ callee] =
        ((c.callArgs args).map Operand.reg ++ [callee]).map ρ
      rw [List.map_append, map_regs hρ]
      rfl
  | _ => rfl

include hρ in
theorem defs_mapOperands (i : Instr) : (i.mapOperands ρ).defs c = (i.defs c).map ρ := by
  cases i with
  | call callee args => exact (map_regs hρ c.callerSave).symm
  | _ => rfl

end Instr

end

/-! ## Operands that are tracked -/

/-- The operands that are nodes of every function in which they occur. -/
def Convention.Tracks (c : Convention) : Operand → Prop
  | .reg r => r ≠ Reg.rsp ∧ r ∈ c.palette
  | .var _ => True
  | _ => False

theorem Convention.Tracks.ne_rsp (h : c.Tracks x) : x ≠ .rsp := by
  rintro rfl
  exact h.1 rfl

namespace Liveness

/-- The operands that are listed before a place. -/
def liveBefore (live : Liveness) (n : Nat) : List Operand :=
  live.nodes.members (row live.rows n).before

/-- The operands that are listed after a place. -/
def liveAfter (live : Liveness) (n : Nat) : List Operand :=
  live.nodes.members (row live.rows n).after

theorem Solution.tracks_of_id? (h : Solution c f live) (hx : live.nodes.id? x = some k) :
    c.Tracks x := by
  cases x with
  | reg r =>
      by_cases hr : r = Reg.rsp
      · simp [Nodes.id?, hr] at hx
      · refine ⟨hr, ?_⟩
        rw [Nodes.id?_reg hr, h.nodes] at hx
        have hlt := (List.idxOf?_eq_some_iff.mp hx).1
        rw [← List.mem_eraseDups, ← (List.idxOf?_eq_some_iff.mp hx).2.1]
        exact List.getElem_mem hlt
  | var v => trivial
  | num | label | runtime | hole => cases hx

/-- Live operands that are tracked are nodes. -/
theorem Solution.id?_of_live (h : Solution c f live) (hx : c.Tracks x) (hlive : Live c f n x) :
    ∃ k, live.nodes.id? x = some k := by
  cases x with
  | reg r =>
      refine Nodes.id?_reg_of_mem hx.1 ?_
      rw [h.nodes]
      exact List.mem_eraseDups.mpr hx.2
  | var v =>
      refine Nodes.id?_var_of_mem ?_
      rw [h.nodes]
      exact hlive.mem_vars
  | num | label | runtime | hole => cases hx

namespace Exact

/-- Whatever is listed stands for an operand that is live. -/
theorem live_of_mem_before (h : Exact c f live) (hk : k ∈ (row live.rows n).before) :
    ∃ x, live.nodes.id? x = some k ∧ Live c f n x := by
  -- from the use backwards, the operand is the one that is used
  refine ((h.path n k).mp hk).backwards
    (P := fun n => ∃ x, live.nodes.id? x = some k ∧ Live c f n x) ?_ ?_
  · intro n hused
    have hn : n < f.code.length := h.size ▸ lt_size_of_mem_gen hused
    have hi := List.getElem?_eq_getElem hn
    rw [h.gen hi] at hused
    obtain ⟨x, hx, hid⟩ := Nodes.mem_setOf.mp hused
    exact ⟨x, hid, .used hi hx⟩
  · rintro n j hj hkill ⟨x, hid, hlive⟩
    have hn : n < f.code.length := by
      rw [← Flow.length_succ_of_resolve h.flow]
      exact lt_size_of_mem_getD hj
    have hi := List.getElem?_eq_getElem hn
    refine ⟨x, hid, .kept hi ((h.mem_succ hi).mp hj).1 hlive ?_⟩
    intro hdef
    exact hkill ((h.mem_kill hi hid).mpr hdef)

theorem mem_liveBefore (h : Exact c f live) :
    x ∈ live.liveBefore n ↔ c.Tracks x ∧ Live c f n x := by
  simp only [liveBefore, Nodes.members, List.mem_filterMap, BitSet.mem_toList]
  constructor
  · rintro ⟨k, hk, hop⟩
    obtain ⟨y, hid, hlive⟩ := h.live_of_mem_before hk
    rw [Nodes.operand?_of_id? hid] at hop
    cases hop
    exact ⟨h.tracks_of_id? hid, hlive⟩
  · rintro ⟨htracks, hlive⟩
    obtain ⟨k, hid⟩ := h.id?_of_live htracks hlive
    exact ⟨k, h.mem_before hlive hid, Nodes.operand?_of_id? hid⟩

theorem mem_liveAfter (h : Exact c f live) :
    x ∈ live.liveAfter n ↔ c.Tracks x ∧ LiveAfter c f n x := by
  simp only [liveAfter, Nodes.members, List.mem_filterMap, BitSet.mem_toList]
  constructor
  · rintro ⟨k, hk, hop⟩
    have hn : n < f.code.length := by
      rw [← h.size]
      refine Nat.lt_of_not_le fun hle => ?_
      rw [row_eq_default hle] at hk
      exact BitSet.not_mem_empty k hk
    have hi := List.getElem?_eq_getElem hn
    obtain ⟨j, hj, hkj⟩ := (h.after k hn).mp hk
    obtain ⟨y, hid, hlive⟩ := h.live_of_mem_before hkj
    rw [Nodes.operand?_of_id? hid] at hop
    cases hop
    exact ⟨h.tracks_of_id? hid, _, j, hi, ((h.mem_succ hi).mp hj).1, hlive⟩
  · rintro ⟨htracks, i, j, hi, hnext, hlive⟩
    obtain ⟨k, hid⟩ := h.id?_of_live htracks hlive
    exact ⟨k, h.mem_after hi hnext hlive hid, Nodes.operand?_of_id? hid⟩

end Exact

end Liveness

end Spillway
