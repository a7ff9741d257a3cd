import Spillway.Proofs.Code.Vars
import Spillway.Proofs.Semantics.Renaming

/-!
# Functions in one memory

A small-step meaning of functions as a machine has it. There is one memory, a map from addresses to
values, and the stack pointer is a register like the others: a memory operand is the cell at the
value of its base plus its offset, whatever the base. A call is some function of the value of its
callee, the argument registers and the memory; it leaves new values in the registers that the caller
saves, and a new memory. A step tells which call it makes, if any.

Frame and heap are views of the one memory (`State.view`), so that an instruction does here what its
action says in the view (`execute_eq`). Renaming what is live therefore keeps two functions in lock
step here as well (`lockStep_of_renaming`): each step of one is a step of the other that makes the
same call or comes to the same end, and so is each run (`LockStep.run`).
-/

namespace Spillway.Flat

/-- A moment of an execution. -/
structure State where
  pc : Nat
  regs : Reg → Int64
  vars : Var → Int64
  memory : Int64 → Int64

/-- What a call leaves behind. -/
structure Left where
  regs : Reg → Int64
  memory : Int64 → Int64

/-- Code outside of a function: values of labels and of functions of the runtime, and what a call
of some value does, given the argument registers and the memory. -/
structure Outside where
  label : Label → Int64
  runtime : String → Int64
  call : Int64 → List Int64 → (Int64 → Int64) → Left

/-- A call as it is made. -/
structure Call where
  callee : Int64
  args : List Int64
  memory : Int64 → Int64

/-- What comes of a step: a state to go on from, after a call or not, or the end by a return, by
running off the last instruction or for want of a place to go on. -/
inductive Outcome where
  | running (call : Option Call) (s : State)
  | returned (exit : List Int64) (memory : Int64 → Int64)
  | halted (memory : Int64 → Int64)
  | stuck

/-! ## Steps -/

namespace State

variable (o : Outside) (s : State)

/-- The value of an operand. -/
def value : Operand → Int64
  | .reg r => s.regs r
  | .var v => s.vars v
  | .num n => n
  | .label l => o.label l
  | .runtime name => o.runtime name
  | .hole => 0

/-- The memory operand at `base + off`. -/
def load (base : Operand) (off : Int64) : Int64 := s.memory (s.value o base + off)

def store (a x : Int64) : State :=
  { s with memory := fun a' => if a' = a then x else s.memory a' }

/-- Give a register or a variable a value. Other operands cannot be given one. -/
def set (dst : Operand) (x : Int64) : State :=
  match dst with
  | .reg r => { s with regs := fun r' => if r' = r then x else s.regs r' }
  | .var v => { s with vars := fun v' => if v' = v then x else s.vars v' }
  | _ => s

/-- The state that a call leaves. -/
def withLeft (c : Convention) (out : Left) : State :=
  { s with
    regs := fun r => if r ∈ c.callerSave then out.regs r else s.regs r
    memory := out.memory }

def goto (j : Nat) : State := { s with pc := j }

/-- Go on to the next instruction. -/
def next : Outcome := .running none (s.goto (s.pc + 1))

/-- Go on at a label. -/
def jump (f : Func) (l : Label) : Outcome :=
  match f.labelIndex? l with
  | some j => .running none (s.goto j)
  | none => .stuck

/-- Make a call, and go on. -/
def call (c : Convention) (callee args : Int64) : Outcome :=
  let made : Call := ⟨callee, (c.callArgs args).map s.regs, s.memory⟩
  let out := o.call made.callee made.args made.memory
  .running (some made) ((s.withLeft c out).goto (s.pc + 1))

end State

/-- Execute one instruction of a function. -/
def execute (c : Convention) (o : Outside) (f : Func) (s : State) : Instr → Outcome
  | .mov dst src => (s.set dst (s.value o src)).next
  | .load dst base off => (s.set dst (s.load o base off)).next
  | .stackArg dst off => (s.set dst (s.load o .rsp (off + 8 * f.locals))).next
  | .store base off src => (s.store (s.value o base + off) (s.value o src)).next
  | .cmp dst cond l r => (s.set dst (if cond.holds (s.value o l) (s.value o r) then 1 else 0)).next
  | .arith op dst src => (s.set dst (op.apply (s.value o dst) (s.value o src))).next
  | .arithLoad op dst base off =>
    (s.set dst (op.apply (s.value o dst) (s.load o base off))).next
  | .memArith op base off src =>
    (s.store (s.value o base + off) (op.apply (s.load o base off) (s.value o src))).next
  | .shift op dst src => (s.set dst (op.apply (s.value o dst) (s.value o src))).next
  | .lea dst base index scale => (s.set dst (s.value o base + s.value o index * scale)).next
  | .inc dst => (s.set dst (s.value o dst + 1)).next
  | .dec dst => (s.set dst (s.value o dst - 1)).next
  | .cjump cond l r yes no =>
    s.jump f (if cond.holds (s.value o l) (s.value o r) then yes else no)
  | .goto l => s.jump f l
  | .label _ => s.next
  | .ret => .returned (c.exit.map s.regs) s.memory
  | .call callee args => s.call o c (s.value o callee) args
  | .hole => .stuck

/-- One step of a function. -/
def step (c : Convention) (o : Outside) (f : Func) (s : State) : Outcome :=
  match f.code[s.pc]? with
  | none => .halted s.memory
  | some i => execute c o f s i

/-- At most `n` steps: the calls that are made, in order, and what comes of it. -/
def run (c : Convention) (o : Outside) (f : Func) : Nat → State → List Call × Outcome
  | 0, s => ([], .running none s)
  | n + 1, s =>
    match step c o f s with
    | .running call s' =>
      let (calls, out) := run c o f n s'
      (call.toList ++ calls, out)
    | out => ([], out)

/-! ## Lock step -/

/-- Both outcomes go on in related states, after the same call or none, or both are the same end. -/
inductive Outcome.Matches (R : State → State → Prop) : Outcome → Outcome → Prop
  | running {call : Option Call} {s t : State} : R s t →
      Matches R (.running call s) (.running call t)
  | returned {exit : List Int64} {memory : Int64 → Int64} :
      Matches R (.returned exit memory) (.returned exit memory)
  | halted {memory : Int64 → Int64} : Matches R (.halted memory) (.halted memory)

/-- Steps from related states match. -/
def LockStep (c : Convention) (o : Outside) (f g : Func) (R : State → State → Prop) : Prop :=
  ∀ s t, R s t → Outcome.Matches R (step c o f s) (step c o g t)

/-- Functions that go in lock step make the same calls and come to the same end. -/
theorem LockStep.run {c : Convention} {o : Outside} {f g : Func} {R : State → State → Prop}
    (h : LockStep c o f g R) (n : Nat) {s t : State} (hR : R s t) :
    (run c o g n t).1 = (run c o f n s).1 ∧
      Outcome.Matches R (run c o f n s).2 (run c o g n t).2 := by
  induction n generalizing s t with
  | zero => exact ⟨rfl, .running hR⟩
  | succ n ih =>
      have hstep := h s t hR
      simp only [Flat.run]
      generalize step c o f s = x at hstep ⊢
      generalize step c o g t = y at hstep ⊢
      cases hstep with
      | @running call s' t' hR' =>
          obtain ⟨hcalls, hout⟩ := ih hR'
          exact ⟨congrArg (call.toList ++ ·) hcalls, hout⟩
      | returned => exact ⟨rfl, .returned⟩
      | halted => exact ⟨rfl, .halted⟩

/-! ## Frame and heap as views -/

/-- Code outside of a function, to which the frame is nothing but memory. -/
def Outside.external (o : Outside) : External where
  label := o.label
  runtime := o.runtime
  call callee args heap _ :=
    let out := o.call callee args heap
    ⟨out.regs, out.memory, fun _ => 0⟩

namespace State

/-- The state with frame and heap as two views of its memory. -/
def view (s : State) : Spillway.State where
  pc := s.pc
  regs := s.regs
  vars := s.vars
  frame m := s.memory (s.regs .rsp + Int64.ofInt m)
  heap := s.memory

/-- The address of a cell of a view. -/
def address (s : State) : Cell → Int64
  | .frame m => s.regs .rsp + Int64.ofInt m
  | .heap a => a

variable {c : Convention} {o : Outside} {s : State}

theorem value_view (x : Operand) : s.view.value (c.world o.external) x = s.value o x := by
  cases x <;> rfl

theorem read_view (d : Cell) : s.view.read d = s.memory (s.address d) := by
  cases d <;> rfl

/-- A memory operand has one address, in the frame or in the heap. -/
theorem address_cell (base : Operand) (off : Int64) :
    s.address (s.view.cell (c.world o.external) base off) = s.value o base + off := by
  unfold Spillway.State.cell
  split
  · rename_i hbase
    rw [hbase]
    show s.regs .rsp + Int64.ofInt off.toInt = s.regs .rsp + off
    rw [Int64.ofInt_toInt]
  · show s.view.value _ base + off = _
    rw [value_view]

theorem value_set (dst : Operand) (n : Int64) (x : Operand) :
    (s.set dst n).value o x = (s.view.set dst n).value (c.world o.external) x := by
  cases dst <;> cases x <;> rfl

@[simp] theorem value_goto (j : Nat) (x : Operand) : (s.goto j).value o x = s.value o x := by
  cases x <;> rfl

@[simp] theorem pc_goto (j : Nat) : (s.goto j).pc = j := rfl

@[simp] theorem memory_goto (j : Nat) : (s.goto j).memory = s.memory := rfl

@[simp] theorem value_store (a n : Int64) (x : Operand) :
    (s.store a n).value o x = s.value o x := by
  cases x <;> rfl

theorem value_withLeft (callee args : Int64) (x : Operand) :
    (s.withLeft c (o.call callee ((c.callArgs args).map s.regs) s.memory)).value o x =
      (s.view.withScope ((c.world o.external).call callee args s.view.scope)).value
        (c.world o.external) x := by
  cases x <;> rfl

@[simp] theorem pc_set (dst : Operand) (n : Int64) : (s.set dst n).pc = s.pc := by
  cases dst <;> rfl

@[simp] theorem memory_set (dst : Operand) (n : Int64) : (s.set dst n).memory = s.memory := by
  cases dst <;> rfl

end State

/-- Carry out an action of the view. -/
def perform (c : Convention) (o : Outside) (f : Func) (s : State) : Action → Outcome
  | .set dst x => (s.set dst x).next
  | .write d x => (s.store (s.address d) x).next
  | .jump l => s.jump f l
  | .skip => s.next
  | .leave => .returned (c.exit.map s.regs) s.memory
  | .call callee args => s.call o c callee args
  | .stop => .stuck

/-- An instruction does what its action says in the view. -/
theorem execute_eq (c : Convention) (o : Outside) (f : Func) (s : State) (i : Instr) :
    execute c o f s i =
      perform c o f s (i.action (c.world o.external) f.locals s.view) := by
  cases i with
  | stackArg dst off =>
      simp only [execute, perform, Instr.action, State.read_view]
      show _ = (s.set dst (s.memory (s.regs .rsp + Int64.ofInt (argumentCell _ off).toInt))).next
      rw [Int64.ofInt_toInt]
      rfl
  | _ =>
      simp only [execute, perform, Instr.action, State.value_view, State.read_view,
        State.address_cell, State.load]

/-! ## Renaming what is live -/

/-- The states agree on memory and on what is live. -/
structure Renamed (o : Outside) (L : Nat → Operand → Prop) (ρ : Operand → Operand)
    (s t : State) : Prop where
  pc : t.pc = s.pc
  memory : t.memory = s.memory
  live : ∀ x, L s.pc x → t.value o (ρ x) = s.value o x

section
variable {c : Convention} {o : Outside} {f : Func} {L : Nat → Operand → Prop}
  {ρ : Operand → Operand} {s t : State}

/-- States that agree have the same stack pointer. -/
theorem Renamed.rsp_eq (hρ : Renaming c f L ρ) (hrsp : ∀ n, L n .rsp) (h : Renamed o L ρ s t) :
    t.regs .rsp = s.regs .rsp := by
  have hlive := h.live .rsp (hrsp s.pc)
  rwa [show ρ .rsp = .rsp from hρ.reg .rsp] at hlive

theorem Renamed.address_eq (hρ : Renaming c f L ρ) (hrsp : ∀ n, L n .rsp)
    (h : Renamed o L ρ s t) (d : Cell) : t.address d = s.address d := by
  cases d with
  | frame m =>
      show t.regs .rsp + _ = s.regs .rsp + _
      rw [h.rsp_eq hρ hrsp]
  | heap a => rfl

/-- States that agree have views that agree. -/
theorem Renamed.view (hρ : Renaming c f L ρ) (hrsp : ∀ n, L n .rsp) (h : Renamed o L ρ s t) :
    Spillway.Renamed (c.world o.external) L ρ s.view t.view where
  pc := h.pc
  frame := by
    funext m
    show t.memory (t.regs .rsp + _) = s.memory (s.regs .rsp + _)
    rw [h.memory, h.rsp_eq hρ hrsp]
  heap := h.memory
  live x hx := by
    rw [State.value_view, State.value_view]
    exact h.live x hx

/-- What is live after an instruction that defines nothing is live before it. -/
theorem Renamed.live_of_defs_nil (hL : LiveFamily c f L) (h : Renamed o L ρ s t) {i : Instr}
    (hi : f.code[s.pc]? = some i) (hdefs : i.defs c = []) {j : Nat} (hnext : f.Next s.pc i j)
    {x : Operand} (hx : L j x) : t.value o (ρ x) = s.value o x :=
  h.live x (hL.kept hi hnext hx (by rw [hdefs]; exact List.not_mem_nil))

/-- A function and the renamed function go in lock step, if they never run out of places to go. -/
theorem lockStep_of_renaming (hL : LiveFamily c f L) (hρ : Renaming c f L ρ)
    (hrsp : ∀ n, L n .rsp) (hf : f.isComplete = true) (hres : f.Resolves) (o : Outside) :
    LockStep c o f (f.rename ρ) (Renamed o L ρ) := by
  intro s t hR
  have hV := hR.view hρ hrsp
  have hcode : (f.rename ρ).code[t.pc]? = (f.code[s.pc]?).map (Instr.mapOperands ρ) := by
    rw [hR.pc]
    exact List.getElem?_map
  unfold step
  rw [hcode]
  cases hi : f.code[s.pc]? with
  | none =>
      show Outcome.Matches _ (.halted s.memory) (.halted t.memory)
      rw [hR.memory]
      exact .halted
  | some i =>
      show Outcome.Matches _ (execute c o f s i) (execute c o (f.rename ρ) t (i.mapOperands ρ))
      have haction := Renaming.action_eq hL hρ hV hi f.locals
      rw [execute_eq, execute_eq, show (f.rename ρ).locals = f.locals from rfl, haction]
      cases hact : i.action (c.world o.external) f.locals s.view with
      | set dst n =>
          refine .running ⟨by simp [hR.pc], by simpa using hR.memory, fun x hx => ?_⟩
          have hx : L (s.pc + 1) x := by simpa using hx
          have hlive := Renaming.set_live hL hρ hV hi hact hx
          rwa [State.value_goto, State.value_goto, State.value_set, State.value_set]
      | write d n =>
          obtain ⟨hdefs, hfall⟩ := Instr.of_action_write c hact
          refine .running ⟨congrArg (· + 1) hR.pc, ?_, fun x hx => ?_⟩
          · -- the stack pointers are the same, so the cell has one address
            show (fun a => if a = t.address d then n else t.memory a) =
              fun a => if a = s.address d then n else s.memory a
            rw [hR.address_eq hρ hrsp, hR.memory]
          · rw [State.value_goto, State.value_goto, State.value_store, State.value_store]
            exact hR.live_of_defs_nil hL hi hdefs (.inl ⟨hfall, rfl⟩) hx
      | jump l =>
          obtain ⟨hdefs, hl⟩ := Instr.of_action_jump c hact
          -- the label has a place, so neither of the two is stuck
          obtain ⟨j, hj⟩ := hres.exists_labelIndex? (List.mem_of_getElem? hi) hl
          simp only [Action.rewrite, perform, State.jump, labelIndex?_rename, hj]
          refine .running ⟨rfl, hR.memory, fun x hx => ?_⟩
          rw [State.value_goto, State.value_goto]
          exact hR.live_of_defs_nil hL hi hdefs (.inr ⟨l, hl, hj⟩) hx
      | skip =>
          obtain ⟨hdefs, hfall⟩ := Instr.of_action_skip c hact
          refine .running ⟨congrArg (· + 1) hR.pc, hR.memory, fun x hx => ?_⟩
          rw [State.value_goto, State.value_goto]
          exact hR.live_of_defs_nil hL hi hdefs (.inl ⟨hfall, rfl⟩) hx
      | leave =>
          have hexit : c.exit.map t.regs = c.exit.map s.regs :=
            Renaming.exit_eq hL hρ hV hi (Instr.of_action_leave hact)
          show Outcome.Matches _ (.returned _ s.memory) (.returned (c.exit.map t.regs) t.memory)
          rw [hexit, hR.memory]
          exact .returned
      | call x args =>
          obtain ⟨callee, hcall, _⟩ := Instr.of_action_call hact
          have hargs : (c.callArgs args).map t.regs = (c.callArgs args).map s.regs :=
            Renaming.callArgs_eq hL hρ hV hi hcall
          -- arguments are used and so live: both make the same call, which leaves the same behind
          have hlive := fun {y : Operand} => Renaming.call_live hL hρ hV hi hcall x (y := y)
          simp only [← State.value_withLeft, hargs, hR.memory] at hlive
          show Outcome.Matches _ (s.call o c x args) (t.call o c x args)
          unfold State.call
          simp only [hargs, hR.memory, hR.pc]
          refine .running ⟨rfl, rfl, fun y hy => ?_⟩
          rw [State.value_goto, State.value_goto]
          exact hlive hy
      | stop =>
          have hhole := Instr.of_action_stop hact
          exact absurd (hhole ▸ List.mem_of_getElem? hi) (Func.isComplete_iff.mp hf)

end

end Spillway.Flat
