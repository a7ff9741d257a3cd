import Spillway.Proofs.Allocator.Output
import Spillway.Proofs.Semantics.Flat

/-!
# A function and its coloring go in lock step

A state of a function and a state of what a coloring makes of it correspond if they are at the same
place, have the same memory and the same values in the registers that the allocation does not
touch, and if every node that the tables list there has the same value in the register it has been
given (`Flat.Corresponds`). One step of each leads to states that correspond again, with the same
call made, or to the same end (`Func.assign_lockStep`).
-/

namespace Spillway

variable {c : Convention} {f : Func} {live : Liveness} {a : Assignment}

/-- A register is a node exactly if it is in the palette. -/
theorem Liveness.Solution.id?_reg_eq_none_iff (h : Liveness.Solution c f live)
    (hrsp : Reg.rsp ∉ c.palette) (r : Reg) :
    live.nodes.id? (.reg r) = none ↔ r ∉ c.palette := by
  by_cases hr : r = Reg.rsp
  · simp [Nodes.id?, hr, hrsp]
  · rw [Nodes.id?_reg hr, h.nodes, List.idxOf?_eq_none_iff, List.mem_eraseDups]

namespace Flat

variable {o : Outside} {s t : State}

/-- A state of a function and a state of the function with registers for its variables. -/
structure Corresponds (c : Convention) (live : Liveness) (a : Assignment) (o : Outside)
    (s t : State) : Prop where
  pc : t.pc = s.pc
  memory : t.memory = s.memory
  /-- Registers outside of the palette are the same. -/
  outside : ∀ r, r ∉ c.palette → t.regs r = s.regs r
  /-- What is listed has its value in its register. -/
  listed : ∀ x k, live.nodes.id? x = some k → k ∈ (Liveness.row live.rows s.pc).before →
    t.value o (x.assign a) = s.value o x

/-- States correspond if they agree on memory and on what the tables list, and on the rest, which
no table lists. -/
theorem corresponds_iff (h : Liveness.Solution c f live) (hrsp : Reg.rsp ∉ c.palette) :
    Corresponds c live a o s t ↔ Renamed o live.Listed (Operand.assign a) s t := by
  constructor
  · intro hR
    refine ⟨hR.pc, hR.memory, fun x hx => ?_⟩
    cases hid : live.nodes.id? x with
    | some k => exact hR.listed x k hid ((Liveness.listed_of_id? hid).mp hx)
    | none =>
        have hvar := (Liveness.listed_of_id?_eq_none hid).mp hx
        rw [Operand.assign_of_var?_eq_none hvar]
        cases x with
        | reg r => exact hR.outside r ((h.id?_reg_eq_none_iff hrsp r).mp hid)
        | var v => cases hvar
        | num | label | runtime | hole => rfl
  · intro hR
    refine ⟨hR.pc, hR.memory, fun r hr => ?_, fun x k hid hk => ?_⟩
    · have hid := (h.id?_reg_eq_none_iff hrsp r).mpr hr
      exact hR.live (.reg r) ((Liveness.listed_of_id?_eq_none hid).mpr rfl)
    · exact hR.live x ((Liveness.listed_of_id? hid).mpr hk)

/-- The state in which every variable has the value of its register. -/
def State.unassign (a : Assignment) (o : Outside) (t : State) : State :=
  { t with vars := fun v => t.value o ((Operand.var v).assign a) }

/-- Every state of the function with registers has one of the function that corresponds to it. -/
theorem corresponds_unassign (c : Convention) (live : Liveness) (a : Assignment) (o : Outside)
    (t : State) : Corresponds c live a o (t.unassign a o) t := by
  refine ⟨rfl, rfl, fun _ _ => rfl, fun x _ _ _ => ?_⟩
  cases x <;> rfl

end Flat

/-- A function whose variables get the registers of a coloring goes in lock step with the function,
step by step and so in every run. -/
theorem Func.assign_lockStep (hc : c.check = .ok ()) (hsp : c.stackPointer = Reg.rsp)
    (hf : f.check = .ok ()) (hres : f.Resolves) :
    ∃ live G r, Liveness.analyze c f = .ok live ∧ Interference.build c f live = .ok G ∧
      Coloring.color c G.graph = .ok r ∧
      ∀ a, r = .colored a → ∃ g, f.assign a = .ok g ∧
        ∀ o, Flat.LockStep c o f g (Flat.Corresponds c live a o) ∧
          ∀ n s t, Flat.Corresponds c live a o s t →
            (Flat.run c o g n t).1 = (Flat.run c o f n s).1 ∧
            Flat.Outcome.Matches (Flat.Corresponds c live a o)
              (Flat.run c o f n s).2 (Flat.run c o g n t).2 := by
  have hacc := Convention.check_eq_ok_iff.mp hc
  have hrsp : Reg.rsp ∉ c.palette := hsp ▸ hacc.stackPointer
  have hcomplete := isComplete_of_check hf
  obtain ⟨live, G, hexamine⟩ := Machine.examine_isOk hcomplete hrsp hres
  have hex := Machine.examine_eq_ok hexamine
  obtain ⟨r, hcolor⟩ := hex.color_isOk hacc
  refine ⟨live, G, r, hex.analyze, hex.build, hcolor, ?_⟩
  rintro a rfl
  refine ⟨_, hex.assign_isOk hacc hcolor, fun o => ?_⟩
  have hrenaming := (hex.proper hacc hcolor).renaming_listed hex.solution hex.build hrsp
  -- the stack pointer is no node, so it is among what always counts as live
  have hpointer : ∀ n, live.Listed n .rsp := by
    intro n
    have hid := (hex.solution.id?_reg_eq_none_iff hrsp Reg.rsp).mpr hrsp
    exact (Liveness.listed_of_id?_eq_none hid).mpr rfl
  have hrel : Flat.Corresponds c live a o = Flat.Renamed o live.Listed (Operand.assign a) := by
    funext s t
    exact propext (Flat.corresponds_iff hex.solution hrsp)
  have hstep : Flat.LockStep c o f (f.rename (Operand.assign a)) (Flat.Corresponds c live a o) := by
    rw [hrel]
    exact Flat.lockStep_of_renaming hex.solution.liveFamily hrenaming hpointer hcomplete hres o
  exact ⟨hstep, fun n s t hR => hstep.run n hR⟩

/-- A function with a loop that shifts by a variable, a slot, and a call of a variable. -/
def Func.calling : Func where
  name := ⟨"calling"⟩
  args := 1
  locals := 1
  code := [
    .mov (.var ⟨"y"⟩) (.reg .rcx), .mov (.var ⟨"x"⟩) (.num 3), .label ⟨"again"⟩,
    .shift .shl (.var ⟨"x"⟩) (.var ⟨"y"⟩),
    .cjump .lt (.var ⟨"x"⟩) (.num 64) ⟨"again"⟩ ⟨"out"⟩, .label ⟨"out"⟩,
    .store .rsp 0 (.var ⟨"x"⟩), .mov (.reg .rcx) (.var ⟨"x"⟩), .mov (.var ⟨"p"⟩) (.label ⟨"g"⟩),
    .call (.var ⟨"p"⟩) 1, .load (.var ⟨"z"⟩) .rsp 0, .arith .add (.reg .rax) (.var ⟨"z"⟩), .ret]

/-- Every call returns its argument and one more, and leaves the memory as it is. -/
def Flat.Outside.successor : Flat.Outside where
  label _ := 4096
  runtime _ := 0
  call _ args memory := ⟨fun _ => args.headD 0 + 1, memory⟩

/-- The start of a function that is given the argument 2. -/
def Flat.State.given : Flat.State :=
  ⟨0, fun r => if r = .rcx then 2 else 0, fun _ => 0, fun _ => 0⟩

/-- With the registers that coloring gives to its variables the function makes the one call it makes
and returns what it returns. -/
theorem Func.assign_lockStep_calling :
    Convention.tight.check = .ok () ∧ calling.check = .ok () ∧ calling.Resolves ∧
      ∃ live G a g, Liveness.analyze .tight calling = .ok live ∧
        Interference.build .tight calling live = .ok G ∧
        Coloring.color .tight G.graph = .ok (.colored a) ∧
        a = [(⟨"y"⟩, .rcx), (⟨"x"⟩, .rax), (⟨"p"⟩, .rax), (⟨"z"⟩, .rcx)] ∧
        calling.assign a = .ok g ∧
        ((Flat.run .tight .successor g 40 .given).1.map fun call => (call.callee, call.args)) =
          [(4096, [192])] ∧
        ∃ memory, (Flat.run .tight .successor g 40 .given).2 = .returned [385] memory := by
  have hc : Convention.tight.check = .ok () := by decide
  have hf : calling.check = .ok () := by decide
  have hres : calling.Resolves := by decide
  let a : Assignment := [(⟨"y"⟩, .rcx), (⟨"x"⟩, .rax), (⟨"p"⟩, .rax), (⟨"z"⟩, .rcx)]
  have hcolor : (Machine.examine .tight calling >>= fun e =>
      Coloring.color .tight e.2.graph) = .ok (.colored a) :=
    toOption_eq_some.mp (by decide +kernel)
  obtain ⟨live, G, r, hlive, hG, hr, hstep⟩ := assign_lockStep hc rfl hf hres
  rw [Machine.Examined.examine_eq ⟨hlive, hG⟩, ok_bind] at hcolor
  obtain ⟨g, hg, hlock⟩ := hstep a (Except.ok.inj (hr.symm.trans hcolor))
  let s : Flat.State := Flat.State.given.unassign a .successor
  have hcalls : ((Flat.run .tight .successor calling 40 s).1.map fun call =>
      (call.callee, call.args)) = [(4096, [192])] := by decide +kernel
  have hexit : (match (Flat.run .tight .successor calling 40 s).2 with
      | .returned exit _ => some exit
      | _ => none) = some [385] := by decide +kernel
  obtain ⟨hsame, hout⟩ := (hlock .successor).2 40 s .given
    (Flat.corresponds_unassign .tight live a .successor .given)
  refine ⟨hc, hf, hres, live, G, a, g, hlive, hG, hcolor, rfl, hg, by rw [hsame, hcalls], ?_⟩
  generalize (Flat.run .tight .successor calling 40 s).2 = x at hexit hout
  generalize (Flat.run .tight .successor g 40 .given).2 = y at hout ⊢
  cases hout with
  | running _ => cases hexit
  | @returned exit memory =>
      cases hexit
      exact ⟨memory, rfl⟩
  | halted => cases hexit

end Spillway
