import Spillway.Proofs.Allocator.Invariant
import Spillway.Proofs.Coloring.Guarded

/-!
# Allocation with checked accesses

The allocation machine once more, on top of the analysis, the graph and the coloring whose accesses
are checked. A run has a number of steps, and going on after the last of them is going astray as
well.

If the palette does not list the stack pointer, a machine that was started never goes astray, in no
iteration and also not after a step that failed: its steps are those of `Machine.step` (`step_eq`).
By the bound on the number of steps, an allocation is then that of `Func.allocate` (`allocate_eq`).
-/

namespace Spillway

open Checked

namespace Guarded

/-! ## The machine -/

/-- Liveness and interference of a function. -/
def examine (c : Convention) (f : Func) : Checked (Liveness × Interference) := do
  let live ← (analyze c f).within .liveness
  let graph ← (build c f live).within .interference
  return (live, graph)

/-- Replace every variable of a function by its register. -/
def assign (f : Func) (a : Assignment) : Checked Func := do
  let f ← done f.complete
  done (f.checkAssigned a)
  let g := { f with code := ← fill f.code fun _ i => return i.mapOperands (Operand.assign a) }
  done g.checkNoVars
  return g

/-- The step of the analyzing phase. -/
def analyzing (c : Convention) (m : Machine) : Checked (Machine × Option Error) :=
  match m.precheck c with
  | .error e => return (m, some e)
  | .ok () =>
    let m := m.nextIteration
    if m.limit < m.iteration then return (m, some (.of (.noProgress m.iteration m.limit)))
    else do
      match ← (examine c m.func).attempt with
      | .error e => return (m, some e)
      | .ok (live, graph) =>
        return ({ m with
          liveness := some live, interference := some graph, phase := .coloring }, none)

/-- The step of the coloring phase. -/
def coloring (c : Convention) (m : Machine) : Checked (Machine × Option Error) :=
  match m.interference with
  | none => return (m, some (.defect .missingInput))
  | some i => do
    match ← ((color c i.graph).within .coloring).attempt with
    | .error e => return (m, some e)
    | .ok (.spilled vs) =>
      return ({ m with coloring := some (.spilled vs), phase := .spilling }, none)
    | .ok (.colored a) =>
      let m := { m with coloring := some (.colored a) }
      match ← (assign m.func a).attempt with
      | .error e => return (m, some e)
      | .ok f => return ({ m with func := f, phase := .done }, none)

/-- One transition. Spilling only goes over the code and makes new code. -/
def step (c : Convention) (m : Machine) : Checked (Machine × Option Error) :=
  match m.phase with
  | .analyzing => analyzing c m
  | .coloring => coloring c m
  | .spilling => return m.spill
  | .done => return (m, none)
  | .unknown => return (m, some (.defect .unknownPhase))

/-- Step until the machine is done, at most `n` times. -/
def run (c : Convention) : Nat → Machine → Checked (Except (Machine × Error) Machine)
  | n, m =>
    if m.phase = .done then return .ok m
    else match n with
      | 0 => stray
      | n + 1 => do
        match ← step c m with
        | (m', none) => run c n m'
        | (m', some e) => return .error (m', e)

/-- Give every variable of a function a register or a stack slot, in at most `n` steps. -/
def allocate (n : Nat) (c : Convention) (f : Func) : Checked Func := do
  let m ← done (Machine.start f)
  match ← run c n m with
  | .ok m => return m.func
  | .error (m, e) => done (.error (e.within (.allocation f.name m.iteration)))

variable {c : Convention} {f : Func} {m : Machine}

/-! ## The parts -/

theorem examine_eq (hrsp : Reg.rsp ∉ c.palette) (F : Func) :
    examine c F = .done (Machine.examine c F) := by
  unfold examine
  rw [analyze_eq]
  refine done_bind _ fun live hlive => ?_
  have hsolution := Liveness.analyze_solution (inContext_eq_ok.mp hlive)
  obtain ⟨g, hg⟩ := Interference.build_isOk hsolution hrsp
  rw [build_eq hsolution hg, hg]
  rfl

theorem assign_eq (f : Func) (a : Assignment) : assign f a = .done (f.assign a) := by
  unfold assign
  refine done_bind _ fun f _ => done_bind _ fun _ _ => ?_
  rw [fill_pure fun _ _ _ => rfl, pure_bind]
  exact done_bind _ fun _ _ => rfl

/-! ## One step -/

theorem analyzing_eq (hrsp : Reg.rsp ∉ c.palette) (m : Machine) :
    analyzing c m = pure (m.analyze c) := by
  unfold analyzing Machine.analyze
  cases m.precheck c with
  | error e => rfl
  | ok _ =>
      simp only
      split
      · rfl
      · rw [examine_eq hrsp, attempt, pure_bind]
        cases Machine.examine c m.nextIteration.func with
        | error e => rfl
        | ok p => rfl

theorem coloring_eq (hcolor : ∀ g, m.interference = some g →
      color c g.graph = .done (Coloring.color c g.graph)) :
    coloring c m = pure (m.color c) := by
  unfold coloring Machine.color
  cases hg : m.interference with
  | none => rfl
  | some g =>
      simp only [hcolor g hg, within, attempt, pure_bind]
      cases inContext .coloring (Coloring.color c g.graph) with
      | error e => rfl
      | ok r =>
          cases r with
          | spilled vs => rfl
          | colored a =>
              simp only [assign_eq, pure_bind]
              cases m.func.assign a with
              | error e => rfl
              | ok F => rfl

/-- No step of a machine goes astray. -/
theorem step_eq (h : Machine.Invariant c f m) (hrsp : Reg.rsp ∉ c.palette) :
    step c m = pure (m.step c) := by
  obtain ⟨F, _, hstage⟩ := h.stage
  unfold step Machine.step
  cases hp : m.phase with
  | analyzing => exact analyzing_eq hrsp m
  | coloring =>
      -- the graph is that of the function, so its edges join nodes
      obtain ⟨live, g, _, hg, hex⟩ := hstage.of_coloring hp
      refine coloring_eq fun g' hg' => ?_
      rw [hg] at hg'
      cases hg'
      exact color_eq c hex.simple
  | spilling => rfl
  | done => rfl
  | unknown => rfl

/-! ## A run -/

/-- A run that ends within its steps does not go astray. -/
theorem run_eq {n : Nat} {r : Except (Machine × Error) Machine} (h : Machine.Invariant c f m)
    (hrsp : Reg.rsp ∉ c.palette) (hr : m.runWithin c n = some r) : run c n m = pure r := by
  induction n generalizing m with
  | zero =>
      unfold run
      unfold Machine.runWithin at hr
      by_cases hp : m.phase = .done
      · rw [if_pos hp] at hr ⊢
        cases hr
        rfl
      · rw [if_neg hp] at hr
        cases hr
  | succ n ih =>
      unfold run
      unfold Machine.runWithin at hr
      by_cases hp : m.phase = .done
      · rw [if_pos hp] at hr ⊢
        cases hr
        rfl
      · simp only [if_neg hp, step_eq h hrsp, pure_bind] at hr ⊢
        have hnext := h.step
        rcases hstep : m.step c with ⟨m', _ | e⟩
        · rw [hstep] at hr hnext
          exact ih hnext hr
        · rw [hstep] at hr
          cases hr
          rfl

/-- An allocation that is given enough steps does not go astray. -/
theorem allocate_eq {n : Nat} (hn : 3 * (f.vars.length + 1) + 1 ≤ n) (hrsp : Reg.rsp ∉ c.palette) :
    allocate n c f = .done (f.allocate c) := by
  unfold allocate Func.allocate
  refine done_bind _ fun m hm => ?_
  obtain ⟨_, rfl⟩ := Machine.start_eq_ok.mp hm
  rw [run_eq (Machine.invariant_initial c f) hrsp (Machine.runWithin_eq_run hn), pure_bind]
  cases (Machine.initial f).run c with
  | ok m => rfl
  | error p => rfl

end Guarded

end Spillway
