import Spillway.Proofs.Liveness.Paths
import Spillway.Proofs.Semantics.Rewriting
import Spillway.Proofs.Semantics.Simulation

/-!
# Renaming what is live

Replacing the operands of a function keeps its meaning if no instruction overwrites the new name of
something that is still needed (`Renaming.simulates`). The two functions run in lock step, and
their states agree on memory and on everything that is live, each operand compared with its new
name. A move may overwrite the new name of its own source: it puts there what was there.

What is live is any family of sets that contains the operands an instruction uses and is carried
backwards by those it does not define (`LiveFamily`). The paths of a function are the least such
family (`Live.family`); under the renaming that changes nothing they say that a function does not
depend on what is not live (`observes_of_live_eq`).
-/

namespace Spillway

/-- Sets of operands, one a place, that contain all that may still be needed there. -/
structure LiveFamily (c : Convention) (f : Func) (L : Nat → Operand → Prop) : Prop where
  used : ∀ {n : Nat} {i : Instr} {x : Operand},
    f.code[n]? = some i → x ∈ i.uses c → L n x
  kept : ∀ {n j : Nat} {i : Instr} {x : Operand},
    f.code[n]? = some i → f.Next n i j → L j x → x ∉ i.defs c → L n x

theorem Live.family (c : Convention) (f : Func) : LiveFamily c f (Live c f) :=
  ⟨Live.used, Live.kept⟩

/-- New names for operands under which nothing live is overwritten. -/
structure Renaming (c : Convention) (f : Func) (L : Nat → Operand → Prop)
    (ρ : Operand → Operand) : Prop where
  /-- Only variables get new names. -/
  fixes : ∀ x : Operand, x.var? = none → ρ x = x
  /-- The new name of a variable can be given a value. -/
  holds : ∀ v : Var, (ρ (.var v)).reg?.isSome ∨ (ρ (.var v)).var?.isSome
  /-- No variable becomes the stack pointer. -/
  base : ∀ v : Var, ρ (.var v) ≠ .rsp
  /-- What an instruction defines and what is live after it have different names, unless the
  instruction moves one to the other. -/
  apart : ∀ {n j : Nat} {i : Instr} {d x : Operand},
    f.code[n]? = some i → f.Next n i j → L j x → d ∈ i.defs c → ρ d = ρ x → d = x ∨ i = .mov d x

/-- The states agree on memory and on what is live. -/
structure Renamed (w : World) (L : Nat → Operand → Prop) (ρ : Operand → Operand)
    (s t : State) : Prop where
  pc : t.pc = s.pc
  frame : t.frame = s.frame
  heap : t.heap = s.heap
  live : ∀ x, L s.pc x → t.value w (ρ x) = s.value w x

/-- The function with its operands replaced. -/
def Func.rename (f : Func) (ρ : Operand → Operand) : Func :=
  { f with code := f.code.map (Instr.mapOperands ρ) }

theorem mapOperands_eq_label (ρ : Operand → Operand) (i : Instr) (l : Label) :
    i.mapOperands ρ = .label l ↔ i = .label l := by
  cases i <;> simp [Instr.mapOperands]

theorem labelIndex?_rename (f : Func) (ρ : Operand → Operand) (l : Label) :
    (f.rename ρ).labelIndex? l = f.labelIndex? l :=
  idxOf?_label_map (mapOperands_eq_label ρ) f.code l

/-- An operand that is neither a register nor a variable has a value of its own. -/
theorem State.value_const {w : World} {x : Operand} (hr : x.reg? = none) (hv : x.var? = none)
    (s t : State) : s.value w x = t.value w x := by
  cases x with
  | reg r => cases hr
  | var v => cases hv
  | num | label | runtime | hole => rfl

theorem State.value_goto (w : World) (s : State) (j : Nat) (x : Operand) :
    { s with pc := j }.value w x = s.value w x := by
  cases x <;> rfl

theorem State.set_const {x : Operand} (hr : x.reg? = none) (hv : x.var? = none) (s : State)
    (n : Int64) : s.set x n = s := by
  cases x with
  | reg r => cases hr
  | var v => cases hv
  | num | label | runtime | hole => rfl

namespace Renaming

variable {c : Convention} {e : External} {f : Func} {L : Nat → Operand → Prop}
  {ρ : Operand → Operand} {s t : State} {i : Instr}

theorem reg (hρ : Renaming c f L ρ) (r : Reg) : ρ (.reg r) = .reg r := hρ.fixes _ rfl

/-- The less is live, the less can be overwritten. -/
theorem mono {L' : Nat → Operand → Prop} (hρ : Renaming c f L ρ) (h : ∀ n x, L' n x → L n x) :
    Renaming c f L' ρ :=
  { hρ with apart := fun hi hnext hx => hρ.apart hi hnext (h _ _ hx) }

theorem eq_rsp (hρ : Renaming c f L ρ) {x : Operand} (h : ρ x = .rsp) : x = .rsp := by
  cases hx : x.var? with
  | none => exact (hρ.fixes x hx).symm.trans h
  | some v =>
      cases x with
      | var u => exact absurd h (hρ.base u)
      | _ => cases hx

/-- What can be given a value can be given one under its new name. -/
theorem holds_of_holds (hρ : Renaming c f L ρ) {x : Operand}
    (hx : x.reg?.isSome ∨ x.var?.isSome) : (ρ x).reg?.isSome ∨ (ρ x).var?.isSome := by
  cases x with
  | var v => exact hρ.holds v
  | reg r => exact .inl (by rw [hρ.reg]; rfl)
  | _ => simp [Operand.reg?, Operand.var?] at hx

section
variable (hL : LiveFamily c f L) (hρ : Renaming c f L ρ)
  (hR : Renamed (c.world e) L ρ s t) (hi : f.code[s.pc]? = some i)

include hρ hR in
theorem cell_eq {base : Operand} (hbase : L s.pc base) (off : Int64) :
    t.cell (c.world e) (ρ base) off = s.cell (c.world e) base off := by
  unfold State.cell
  by_cases hb : base = .rsp
  · rw [hb, hρ.reg]
    simp
  · have hb' : ρ base ≠ .rsp := fun h => hb (hρ.eq_rsp h)
    rw [if_neg hb, if_neg hb', hR.live base hbase]

include hR in
theorem read_eq (d : Cell) : t.read d = s.read d := by
  cases d with
  | frame m => exact congrFun hR.frame m
  | heap a => exact congrFun hR.heap a

include hL hρ hR hi in
/-- The renamed instruction does the renamed action. -/
theorem action_eq (locals : Int64) :
    (i.mapOperands ρ).action (c.world e) locals t =
      (i.action (c.world e) locals s).rewrite ρ id := by
  have hinput : ∀ x ∈ i.inputs, L s.pc x := fun x hx => hL.used hi (i.inputs_subset_uses c hx)
  rw [Instr.mapOperands_eq_rewrite]
  refine action_rewrite i (fun x hx => hR.live x (hinput x hx)) ?_ ?_
  · intro base off hmem
    have hbase : base ∈ i.inputs := by
      cases i <;> simp only [Instr.memory?, Option.some.injEq, Prod.mk.injEq, reduceCtorEq] at hmem
        <;> simp [Instr.inputs, hmem.1]
    exact ⟨cell_eq hρ hR (hinput base hbase) off, read_eq hR _⟩
  · intro dst off _
    exact read_eq hR _

include hL hρ hR hi in
/-- An instruction with a destination keeps the states in agreement. -/
theorem set_live {dst : Operand} {n : Int64} (hact : i.action (c.world e) f.locals s = .set dst n)
    {x : Operand} (hx : L (s.pc + 1) x) :
    (t.set (ρ dst) n).value (c.world e) (ρ x) = (s.set dst n).value (c.world e) x := by
  obtain ⟨hdefs, hfall⟩ := Instr.of_action_set c hact
  have hnext : f.Next s.pc i (s.pc + 1) := .inl ⟨hfall, rfl⟩
  by_cases hh : dst.reg?.isSome ∨ dst.var?.isSome
  · by_cases hxd : x = dst
    · subst hxd
      rw [State.value_set_self hh, State.value_set_self (hρ.holds_of_holds hh)]
    · have hlive : L s.pc x := hL.kept hi hnext hx (by simpa [hdefs] using hxd)
      rw [State.value_set_of_ne hxd]
      by_cases hname : ρ dst = ρ x
      · -- only a move from `x` itself may write to the name of `x`
        rcases hρ.apart hi hnext hx (by simp [hdefs]) hname with h | h
        · exact absurd h.symm hxd
        · subst h
          simp only [Instr.action, Action.set.injEq] at hact
          rw [← hname, State.value_set_self (hρ.holds_of_holds hh), hact.2]
      · rw [State.value_set_of_ne (fun h => hname h.symm), hR.live x hlive]
  · -- nothing is stored, and `dst` keeps the value it always has
    have hr : dst.reg? = none := by
      cases hd : dst.reg? with
      | none => rfl
      | some r => exact absurd (.inl (by rw [hd]; rfl)) hh
    have hv : dst.var? = none := by
      cases hd : dst.var? with
      | none => rfl
      | some v => exact absurd (.inr (by rw [hd]; rfl)) hh
    rw [hρ.fixes dst hv, State.set_const hr hv, State.set_const hr hv]
    by_cases hxd : x = dst
    · rw [hxd, hρ.fixes dst hv]
      exact State.value_const hr hv t s
    · exact hR.live x (hL.kept hi hnext hx (by simpa [hdefs] using hxd))

include hL hρ hR hi in
/-- A call is given the same arguments in both states. -/
theorem callArgs_eq {callee : Operand} {args : Int64} (hcall : i = .call callee args) :
    (c.callArgs args).map t.regs = (c.callArgs args).map s.regs := by
  refine List.map_congr_left fun r hr => ?_
  have hused : .reg r ∈ i.uses c := by
    rw [hcall]
    exact List.mem_append_left _ (List.mem_map_of_mem hr)
  have hlive := hR.live (.reg r) (hL.used hi hused)
  rwa [hρ.reg] at hlive

include hL hρ hR hi in
/-- A return hands back the same registers in both states. -/
theorem exit_eq (hret : i = .ret) : c.exit.map t.regs = c.exit.map s.regs := by
  refine List.map_congr_left fun r hr => ?_
  have hused : .reg r ∈ i.uses c := by
    rw [hret]
    exact List.mem_map_of_mem hr
  have hlive := hR.live (.reg r) (hL.used hi hused)
  rwa [hρ.reg] at hlive

include hL hρ hR hi in
/-- A call that keeps to the convention returns the same in both states. -/
theorem call_eq {callee : Operand} {args : Int64} (hcall : i = .call callee args) (x : Int64) :
    e.call x ((c.callArgs args).map t.regs) t.heap t.scope.below =
      e.call x ((c.callArgs args).map s.regs) s.heap s.scope.below := by
  have hbelow : t.scope.below = s.scope.below := by
    unfold State.scope
    rw [hR.frame]
  rw [callArgs_eq hL hρ hR hi hcall, hbelow, hR.heap]

include hL hρ hR hi in
theorem call_live {callee : Operand} {args : Int64} (hcall : i = .call callee args) (x : Int64)
    {y : Operand} (hy : L (s.pc + 1) y) :
    (t.withScope ((c.world e).call x args t.scope)).value (c.world e) (ρ y) =
      (s.withScope ((c.world e).call x args s.scope)).value (c.world e) y := by
  have hout := call_eq hL hρ hR hi hcall x
  have hnext : f.Next s.pc i (s.pc + 1) := by
    rw [hcall]
    exact .inl ⟨rfl, rfl⟩
  have hdefs : i.defs c = c.callerSave.map .reg := by rw [hcall]; rfl
  -- a register that the call may change has the value that the call returns, any other its own
  have hreg : ∀ (u : State) (r : Reg),
      (u.withScope ((c.world e).call x args u.scope)).value (c.world e) (.reg r) =
        if r ∈ c.callerSave then
          (e.call x ((c.callArgs args).map u.regs) u.heap u.scope.below).regs r
        else u.regs r := fun u r => rfl
  by_cases hy' : y ∈ i.defs c
  · rw [hdefs] at hy'
    obtain ⟨r, hr, rfl⟩ := List.mem_map.mp hy'
    rw [hρ.reg, hreg, hreg, if_pos hr, if_pos hr, hout]
  · have hlive := hR.live y (hL.kept hi hnext hy hy')
    cases y with
    | reg r =>
        have hr : r ∉ c.callerSave := fun h => hy' (by rw [hdefs]; exact List.mem_map_of_mem h)
        rw [hρ.reg, hreg, hreg, if_neg hr, if_neg hr]
        rwa [hρ.reg] at hlive
    | var v =>
        cases hv : ρ (.var v) with
        | reg r =>
            have hr : r ∉ c.callerSave := by
              intro h
              have hd : .reg r ∈ i.defs c := by rw [hdefs]; exact List.mem_map_of_mem h
              rcases hρ.apart hi hnext hy hd (by rw [hρ.reg, hv]) with h | h
              · cases h
              · rw [hcall] at h
                cases h
            rw [hreg, if_neg hr]
            rwa [hv] at hlive
        | var u => rwa [hv] at hlive
        | num | label | runtime | hole =>
            rcases hρ.holds v with h | h <;> rw [hv] at h <;> cases h
    | num | label | runtime | hole => rwa [hρ.fixes _ rfl] at hlive ⊢

include hL hR hi in
/-- What is live after an instruction that defines nothing is live before it. -/
theorem live_of_defs_nil (hdefs : i.defs c = []) {j : Nat} (hnext : f.Next s.pc i j) {x : Operand}
    (hx : L j x) : t.value (c.world e) (ρ x) = s.value (c.world e) x :=
  hR.live x (hL.kept hi hnext hx (by rw [hdefs]; exact List.not_mem_nil))

end

/-- One step of the function is matched by one step of the renamed function. -/
theorem simulates (hL : LiveFamily c f L) (hρ : Renaming c f L ρ) :
    Simulates c (c.world e) f (f.rename ρ) (Renamed (c.world e) L ρ) := by
  intro s t hR
  refine ⟨0, ?_⟩
  rw [Func.run_one]
  unfold Func.step
  have hcode : (f.rename ρ).code[t.pc]? = (f.code[s.pc]?).map (Instr.mapOperands ρ) := by
    rw [hR.pc]
    exact List.getElem?_map
  cases hi : f.code[s.pc]? with
  | none =>
      rw [hcode, hi]
      show some (Observation.ended s.heap) = some (Observation.ended t.heap)
      rw [hR.heap]
  | some i =>
      rw [hcode, hi]
      show Outcome.Matches c _ (s.perform _ f _)
        (t.perform _ (f.rename ρ) ((i.mapOperands ρ).action _ f.locals t))
      rw [action_eq hL hρ hR hi f.locals]
      cases hact : i.action (c.world e) f.locals s with
      | set dst n =>
          refine ⟨?_, ?_, ?_, fun x hx => ?_⟩
          · simp [hR.pc]
          · simpa using hR.frame
          · simpa using hR.heap
          · rw [State.value_advance, State.value_advance]
            exact set_live hL hρ hR hi hact (by simpa using hx)
      | write d n =>
          obtain ⟨hdefs, hfall⟩ := Instr.of_action_write c hact
          refine ⟨?_, ?_, ?_, fun x hx => ?_⟩
          · simp [hR.pc]
          · cases d with
            | frame m => simp [State.write, hR.frame]
            | heap a => exact hR.frame
          · cases d with
            | frame m => exact hR.heap
            | heap a => simp [State.write, hR.heap]
          · rw [State.value_advance, State.value_advance, State.value_write, State.value_write]
            exact live_of_defs_nil hL hR hi hdefs (.inl ⟨hfall, rfl⟩) (by simpa using hx)
      | jump l =>
          obtain ⟨hdefs, hl⟩ := Instr.of_action_jump c hact
          simp only [Action.rewrite, State.perform, labelIndex?_rename]
          cases hj : f.labelIndex? l with
          | none => rfl
          | some j =>
              refine ⟨rfl, hR.frame, hR.heap, fun x hx => ?_⟩
              have hlive := live_of_defs_nil hL hR hi hdefs (.inr ⟨l, hl, hj⟩) hx
              rwa [State.value_goto, State.value_goto]
      | skip =>
          obtain ⟨hdefs, hfall⟩ := Instr.of_action_skip c hact
          refine ⟨congrArg (· + 1) hR.pc, hR.frame, hR.heap, fun x hx => ?_⟩
          rw [State.value_advance, State.value_advance]
          exact live_of_defs_nil hL hR hi hdefs (.inl ⟨hfall, rfl⟩) hx
      | leave =>
          -- a return uses the registers that are observed, so they are live
          have hexit := exit_eq hL hρ hR hi (Instr.of_action_leave hact)
          show some (Observation.returned _ _) = some (Observation.returned _ _)
          rw [hexit, hR.heap]
      | call x args =>
          obtain ⟨callee, hcall, _⟩ := Instr.of_action_call hact
          have hout := call_eq hL hρ hR hi hcall x
          refine ⟨congrArg (· + 1) hR.pc, ?_, ?_, fun y hy => ?_⟩
          · show (t.withScope _).frame = (s.withScope _).frame
            funext m
            cases m with
            | ofNat m => exact congrFun hR.frame m
            | negSucc m => exact congrArg (fun out : Scope => out.below m) hout
          · show (e.call x _ _ _).heap = (e.call x _ _ _).heap
            exact congrArg Scope.heap hout
          · rw [State.value_advance, State.value_advance]
            exact call_live hL hρ hR hi hcall x hy
      | stop => rfl

/-- Renaming keeps what can be observed. -/
theorem observes_iff (hL : LiveFamily c f L) (hρ : Renaming c f L ρ)
    (hR : Renamed (c.world e) L ρ s t) (o : Observation) :
    Observes c (c.world e) f s o ↔ Observes c (c.world e) (f.rename ρ) t o :=
  (simulates hL hρ).observes_iff hR o

end Renaming

/-! ## What is not live does not matter -/

theorem Renaming.id (c : Convention) (f : Func) (L : Nat → Operand → Prop) :
    Renaming c f L fun x => x where
  fixes _ _ := rfl
  holds _ := .inr rfl
  base v h := by cases h
  apart _ _ _ _ h := .inl h

theorem Func.rename_id (f : Func) : (f.rename fun x => x) = f := by
  have hcode : f.code.map (Instr.mapOperands fun x => x) = f.code :=
    (List.map_congr_left fun i _ => i.mapOperands_id).trans (List.map_id _)
  unfold Func.rename
  rw [hcode]

/-- States that agree on memory and on what is live lead to the same observations. -/
theorem observes_of_live_eq {c : Convention} {e : External} {f : Func} {s t : State}
    (hpc : t.pc = s.pc) (hframe : t.frame = s.frame) (hheap : t.heap = s.heap)
    (hlive : ∀ x, Live c f s.pc x → t.value (c.world e) x = s.value (c.world e) x)
    (o : Observation) : Observes c (c.world e) f s o ↔ Observes c (c.world e) f t o := by
  have hR : Renamed (c.world e) (Live c f) (fun x => x) s t := ⟨hpc, hframe, hheap, hlive⟩
  have h := (Renaming.id c f (Live c f)).observes_iff (Live.family c f) hR o
  rwa [Func.rename_id] at h

end Spillway
