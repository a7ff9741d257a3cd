import Spillway.Allocator.Assign
import Spillway.Code.WellFormed
import Spillway.Frame.Spill

/-!
# The allocation machine

Allocation goes round in iterations. *Analyzing* computes liveness and interference of the current
function, *coloring* chooses registers or variables to spill, and *spilling* spills those and starts
the next iteration. When every variable has a register, the registers replace the variables and the
machine is *done*. A function with `n` variables may take `n + 1` iterations.

`Machine.step` is one such transition. A step that fails leaves phase, function and spilled
variables as they were, but may have counted an iteration and dropped earlier results; the machine
can be stepped again.
-/

namespace Spillway

/-- What an allocation does next. -/
inductive Phase where
  | analyzing
  | coloring
  | spilling
  | done
  /-- No phase that exists. -/
  | unknown
  deriving DecidableEq, Repr, Inhabited

namespace Phase

/-- The phase of a code. -/
def ofCode : Int → Phase
  | 0 => analyzing
  | 1 => coloring
  | 2 => spilling
  | 3 => done
  | _ => unknown

/-- The name of a phase. -/
def text : Phase → String
  | analyzing => "analyzing"
  | coloring => "coloring"
  | spilling => "spilling"
  | done => "done"
  | unknown => "unknown"

/-- How many phases of the current iteration are still to come. -/
def remaining : Phase → Nat
  | coloring => 2
  | spilling => 1
  | _ => 0

end Phase

/-- An allocation in progress. The results are those of the current iteration. -/
structure Machine where
  phase : Phase
  iteration : Nat
  func : Func
  liveness : Option Liveness
  interference : Option Interference
  coloring : Option Coloring
  /-- Every variable spilled so far, in order. Each has taken a slot. -/
  spilled : List Var
  /-- The number of iterations that are allowed. -/
  limit : Nat
  deriving Repr

namespace Machine

/-- The machine that is to allocate a function. -/
def start (f : Func) : Except Error Machine := do
  let f ← f.complete
  return {
    phase := .analyzing, iteration := 0, func := f
    liveness := none, interference := none, coloring := none
    spilled := [], limit := f.vars.length + 1 }

/-- Before the first iteration, convention and function are checked. -/
def precheck (c : Convention) (m : Machine) : Except Error Unit :=
  if m.iteration = 0 then do
    inContext .convention (c.check.mapError fun fault => .of (.badConvention fault))
    m.func.check
  else .ok ()

/-- Count an iteration and drop the results of the last one. -/
def nextIteration (m : Machine) : Machine :=
  { m with
    iteration := m.iteration + 1
    liveness := none, interference := none, coloring := none }

/-- Liveness and interference of a function. -/
def examine (c : Convention) (f : Func) : Except Error (Liveness × Interference) := do
  let live ← inContext .liveness (Liveness.analyze c f)
  let graph ← inContext .interference (Interference.build c f live)
  return (live, graph)

/-- The step of the analyzing phase. -/
def analyze (c : Convention) (m : Machine) : Machine × Option Error :=
  match m.precheck c with
  | .error e => (m, some e)
  | .ok () =>
    let m := m.nextIteration
    if m.limit < m.iteration then (m, some (.of (.noProgress m.iteration m.limit)))
    else match examine c m.func with
      | .error e => (m, some e)
      | .ok (live, graph) =>
        ({ m with liveness := some live, interference := some graph, phase := .coloring }, none)

/-- The step of the coloring phase. -/
def color (c : Convention) (m : Machine) : Machine × Option Error :=
  match m.interference with
  | none => (m, some (.defect .missingInput))
  | some i =>
    match inContext .coloring (Coloring.color c i.graph) with
    | .error e => (m, some e)
    | .ok (.spilled vs) => ({ m with coloring := some (.spilled vs), phase := .spilling }, none)
    | .ok (.colored a) =>
      let m := { m with coloring := some (.colored a) }
      match m.func.assign a with
      | .error e => (m, some e)
      | .ok f => ({ m with func := f, phase := .done }, none)

/-- Spill variables one after the other; the temporaries of each are named after it. -/
def spillAll (f : Func) : List Var → Except Error Func
  | [] => .ok f
  | v :: vs => do
    let (g, _) ← f.spill v (v.name ++ "_")
    spillAll g vs

/-- The step of the spilling phase. -/
def spill (m : Machine) : Machine × Option Error :=
  match m.coloring with
  | none => (m, some (.defect .missingInput))
  | some result =>
    match spillAll m.func result.spills with
    | .error e => (m, some e)
    | .ok f => ({ m with func := f, spilled := m.spilled ++ result.spills, phase := .analyzing }, none)

/-- One transition. A machine that is done stays as it is. -/
def step (c : Convention) (m : Machine) : Machine × Option Error :=
  match m.phase with
  | .analyzing => m.analyze c
  | .coloring => m.color c
  | .spilling => m.spill
  | .done => (m, none)
  | .unknown => (m, some (.defect .unknownPhase))

/-- A bound on the transitions that are still to come: three an iteration. -/
def rank (m : Machine) : Nat := 3 * (m.limit + 1 - m.iteration) + m.phase.remaining

theorem rank_analyze_lt {c : Convention} {m m' : Machine} (hp : m.phase = .analyzing)
    (h : m.analyze c = (m', none)) : m'.rank < m.rank := by
  unfold analyze at h
  split at h
  · simp at h
  · simp only at h
    split at h
    · simp at h
    · rename_i hlim
      split at h
      · simp at h
      · cases h
        simp only [nextIteration] at hlim
        simp only [rank, nextIteration, Phase.remaining, hp]
        omega

theorem rank_color_lt {c : Convention} {m m' : Machine} (hp : m.phase = .coloring)
    (h : m.color c = (m', none)) : m'.rank < m.rank := by
  unfold color at h
  split at h
  · simp at h
  · split at h
    · simp at h
    · cases h
      simp [rank, Phase.remaining, hp]
    · simp only at h
      split at h
      · simp at h
      · cases h
        simp [rank, Phase.remaining, hp]

theorem rank_spill_lt {m m' : Machine} (hp : m.phase = .spilling)
    (h : m.spill = (m', none)) : m'.rank < m.rank := by
  unfold spill at h
  split at h
  · simp at h
  · split at h
    · simp at h
    · cases h
      simp [rank, Phase.remaining, hp]

/-- A step that succeeds before the machine is done leaves fewer to come. -/
theorem rank_step_lt {c : Convention} {m m' : Machine} (hp : m.phase ≠ .done)
    (h : m.step c = (m', none)) : m'.rank < m.rank := by
  unfold step at h
  split at h
  · rename_i hp'; exact rank_analyze_lt hp' h
  · rename_i hp'; exact rank_color_lt hp' h
  · rename_i hp'; exact rank_spill_lt hp' h
  · rename_i hp'; exact absurd hp' hp
  · simp at h

/-- Step until the machine is done. On failure the machine at that point is returned as well. -/
def run (c : Convention) (m : Machine) : Except (Machine × Error) Machine :=
  if _hp : m.phase = .done then .ok m
  else match _h : m.step c with
    | (m', none) => run c m'
    | (m', some e) => .error (m', e)
termination_by m.rank
decreasing_by exact rank_step_lt _hp _h

end Machine

/-- Give every variable of a function a register or a stack slot. -/
def Func.allocate (c : Convention) (f : Func) : Except Error Func := do
  let m ← Machine.start f
  match m.run c with
  | .ok m => return m.func
  | .error (m, e) => throw (e.within (.allocation f.name m.iteration))

end Spillway
