import Spillway.Proofs.Allocator.Assign
import Spillway.Proofs.Allocator.Spills

/-!
# What a step of the machine can do

All that one step may do is said once (`Machine.Transition`, `transition_of_step`). A step that
fails leaves phase, function and spilled variables alone (`Transition.kept_of_error`). An invariant
of steps is an invariant of runs (`run_eq_ok`, `run_eq_error`).
-/

namespace Spillway.Machine

/-- The machine `m` steps to `m'`, with an error if it fails. -/
inductive Transition (c : Convention) (m : Machine) : Machine → Option Error → Prop
  /-- Convention or function do not pass the check. -/
  | rejected {e : Error} : m.phase = .analyzing → m.precheck c = .error e →
      Transition c m m (some e)
  /-- There is no iteration left. -/
  | exhausted : m.phase = .analyzing → m.precheck c = .ok () → m.limit < m.iteration + 1 →
      Transition c m m.nextIteration (some (.of (.noProgress (m.iteration + 1) m.limit)))
  | unexamined {e : Error} : m.phase = .analyzing → m.precheck c = .ok () →
      m.iteration + 1 ≤ m.limit → examine c m.func = .error e →
      Transition c m m.nextIteration (some e)
  | examined {live : Liveness} {g : Interference} : m.phase = .analyzing →
      m.precheck c = .ok () → m.iteration + 1 ≤ m.limit → examine c m.func = .ok (live, g) →
      Transition c m { m.nextIteration with
        liveness := some live, interference := some g, phase := .coloring } none
  | graphless : m.phase = .coloring → m.interference = none →
      Transition c m m (some (.defect .missingInput))
  | uncolored {g : Interference} {e : Error} : m.phase = .coloring → m.interference = some g →
      inContext .coloring (Coloring.color c g.graph) = .error e → Transition c m m (some e)
  | spills {g : Interference} {vs : List Var} : m.phase = .coloring → m.interference = some g →
      Coloring.color c g.graph = .ok (.spilled vs) →
      Transition c m { m with coloring := some (.spilled vs), phase := .spilling } none
  | unassigned {g : Interference} {a : Assignment} {e : Error} : m.phase = .coloring →
      m.interference = some g → Coloring.color c g.graph = .ok (.colored a) →
      m.func.assign a = .error e → Transition c m { m with coloring := some (.colored a) } (some e)
  | assigned {g : Interference} {a : Assignment} {f : Func} : m.phase = .coloring →
      m.interference = some g → Coloring.color c g.graph = .ok (.colored a) →
      m.func.assign a = .ok f →
      Transition c m { m with coloring := some (.colored a), func := f, phase := .done } none
  | resultless : m.phase = .spilling → m.coloring = none →
      Transition c m m (some (.defect .missingInput))
  | unspilled {r : Coloring} {e : Error} : m.phase = .spilling → m.coloring = some r →
      spillAll m.func r.spills = .error e → Transition c m m (some e)
  | spilled {r : Coloring} {f : Func} : m.phase = .spilling → m.coloring = some r →
      spillAll m.func r.spills = .ok f →
      Transition c m { m with
        func := f, spilled := m.spilled ++ r.spills, phase := .analyzing } none
  | finished : m.phase = .done → Transition c m m none
  | lost : m.phase = .unknown → Transition c m m (some (.defect .unknownPhase))

variable {c : Convention} {m m' : Machine} {e : Option Error}

theorem transition_analyze (hp : m.phase = .analyzing) :
    Transition c m (m.analyze c).1 (m.analyze c).2 := by
  unfold analyze
  cases hpre : m.precheck c with
  | error e => exact .rejected hp hpre
  | ok _ =>
      simp only
      split
      · rename_i hlimit
        exact .exhausted hp hpre hlimit
      · rename_i hlimit
        have hle : m.iteration + 1 ≤ m.limit := Nat.le_of_not_lt hlimit
        cases hex : examine c m.nextIteration.func with
        | error e => exact .unexamined hp hpre hle hex
        | ok p => exact .examined hp hpre hle hex

theorem transition_color (hp : m.phase = .coloring) :
    Transition c m (m.color c).1 (m.color c).2 := by
  unfold color
  split
  · rename_i hg
    exact .graphless hp hg
  · rename_i g hg
    split
    · rename_i e hcolor
      exact .uncolored hp hg hcolor
    · rename_i vs hcolor
      exact .spills hp hg (inContext_eq_ok.mp hcolor)
    · rename_i a hcolor
      have hcolor := inContext_eq_ok.mp hcolor
      simp only
      split
      · rename_i e hassign
        exact .unassigned hp hg hcolor hassign
      · rename_i f hassign
        exact .assigned hp hg hcolor hassign

theorem transition_spill (hp : m.phase = .spilling) : Transition c m m.spill.1 m.spill.2 := by
  unfold spill
  split
  · rename_i hr
    exact .resultless hp hr
  · rename_i r hr
    split
    · rename_i e hspill
      exact .unspilled hp hr hspill
    · rename_i f hspill
      exact .spilled hp hr hspill

/-- A step does one of these. -/
theorem transition_step (c : Convention) (m : Machine) :
    Transition c m (m.step c).1 (m.step c).2 := by
  unfold step
  cases hp : m.phase with
  | analyzing => exact transition_analyze hp
  | coloring => exact transition_color hp
  | spilling => exact transition_spill hp
  | done => exact .finished hp
  | unknown => exact .lost hp

theorem transition_of_step (h : m.step c = (m', e)) : Transition c m m' e := by
  have ht := transition_step c m
  rwa [h] at ht

namespace Transition

/-- A step that fails leaves phase, function and spilled variables as they were. -/
theorem kept_of_error {err : Error} (h : Transition c m m' (some err)) :
    m'.phase = m.phase ∧ m'.func = m.func ∧ m'.spilled = m.spilled := by
  cases h <;> exact ⟨rfl, rfl, rfl⟩

end Transition

/-! ## Steps and runs -/

/-- The machine after so many steps, whether they fail or not. -/
def steps (c : Convention) : Nat → Machine → Machine
  | 0, m => m
  | n + 1, m => ((steps c n m).step c).1

/-- What holds at the start and is kept by every step holds after all. -/
theorem steps_induction {P : Machine → Prop} (hstep : ∀ m, P m → P (m.step c).1) (hm : P m)
    (n : Nat) : P (m.steps c n) := by
  induction n with
  | zero => exact hm
  | succ n ih => exact hstep _ ih

theorem steps_step (c : Convention) (m : Machine) (n : Nat) :
    (m.step c).1.steps c n = m.steps c (n + 1) := by
  induction n with
  | zero => rfl
  | succ n ih =>
      show ((steps c n (m.step c).1).step c).1 = ((steps c (n + 1) m).step c).1
      rw [ih]

theorem run_of_done (hp : m.phase = .done) : m.run c = .ok m := by
  rw [run, dif_pos hp]

theorem run_of_step_ok (hp : m.phase ≠ .done) (h : m.step c = (m', none)) :
    m.run c = m'.run c := by
  rw [run, dif_neg hp]
  split
  · rename_i m₁ h'
    rw [h] at h'
    cases h'
    rfl
  · rename_i m₁ err h'
    rw [h] at h'
    cases h'

theorem run_of_step_error {err : Error} (hp : m.phase ≠ .done) (h : m.step c = (m', some err)) :
    m.run c = .error (m', err) := by
  rw [run, dif_neg hp]
  split
  · rename_i m₁ h'
    rw [h] at h'
    cases h'
  · rename_i m₁ err' h'
    rw [h] at h'
    cases h'
    rfl

/-- A run that succeeds leads to a machine that is done. -/
theorem run_eq_ok (h : m.run c = .ok m') : m'.phase = .done ∧ ∃ n, m.steps c n = m' := by
  induction m using run.induct c with
  | case1 m hp =>
      rw [run_of_done hp] at h
      cases h
      exact ⟨hp, 0, rfl⟩
  | case2 m hp next hstep ih =>
      rw [run_of_step_ok hp hstep] at h
      obtain ⟨hdone, n, hn⟩ := ih h
      refine ⟨hdone, n + 1, ?_⟩
      rw [← steps_step, hstep]
      exact hn
  | case3 m hp next err hstep =>
      rw [run_of_step_error hp hstep] at h
      cases h

/-- A run that fails does so at a step of a machine that is not done. -/
theorem run_eq_error {err : Error} (h : m.run c = .error (m', err)) :
    ∃ n, (m.steps c n).phase ≠ .done ∧ (m.steps c n).step c = (m', some err) := by
  induction m using run.induct c with
  | case1 m hp =>
      rw [run_of_done hp] at h
      cases h
  | case2 m hp next hstep ih =>
      rw [run_of_step_ok hp hstep] at h
      obtain ⟨n, hn⟩ := ih h
      refine ⟨n + 1, ?_⟩
      rw [← steps_step, hstep]
      exact hn
  | case3 m hp next err' hstep =>
      rw [run_of_step_error hp hstep] at h
      cases h
      exact ⟨0, hp, hstep⟩

/-! ## The number of steps -/

/-- Run the machine with at most `n` steps. -/
def runWithin (c : Convention) : Nat → Machine → Option (Except (Machine × Error) Machine)
  | n, m =>
    if m.phase = .done then some (.ok m)
    else match n with
      | 0 => none
      | n + 1 =>
        match m.step c with
        | (m', none) => m'.runWithin c n
        | (m', some err) => some (.error (m', err))

/-- How many steps a machine may still take: three an iteration, and the one that finds that there
is no iteration left. -/
def stepsLeft (m : Machine) : Nat :=
  match m.phase with
  | .analyzing => 3 * (m.limit - m.iteration) + 1
  | .coloring => 3 * (m.limit - m.iteration) + 3
  | .spilling => 3 * (m.limit - m.iteration) + 2
  | .done => 0
  | .unknown => 1

theorem stepsLeft_pos (hp : m.phase ≠ .done) : 0 < m.stepsLeft := by
  unfold stepsLeft
  cases h : m.phase with
  | done => exact absurd h hp
  | analyzing | coloring | spilling | unknown => simp

theorem Transition.stepsLeft_lt (hp : m.phase ≠ .done) (h : Transition c m m' none) :
    m'.stepsLeft < m.stepsLeft := by
  cases h with
  | examined hphase _ hle _ =>
      -- the only step that starts an iteration, within the limit
      simp only [stepsLeft, hphase, nextIteration]
      omega
  | spills hphase _ _ => simp [stepsLeft, hphase]
  | assigned hphase _ _ _ => simp [stepsLeft, hphase]
  | spilled hphase _ _ => simp [stepsLeft, hphase]
  | finished hphase => exact absurd hphase hp

/-- A run needs no more steps than are left. -/
theorem runWithin_eq_run {n : Nat} (h : m.stepsLeft ≤ n) : m.runWithin c n = some (m.run c) := by
  induction n generalizing m with
  | zero =>
      have hp : m.phase = .done := by
        refine Classical.byContradiction fun hp => ?_
        have := stepsLeft_pos hp
        omega
      rw [runWithin, if_pos hp, run_of_done hp]
  | succ n ih =>
      rw [runWithin]
      split
      · rename_i hp
        rw [run_of_done hp]
      · rename_i hp
        split
        · rename_i m₁ hstep
          have hlt := (transition_of_step hstep).stepsLeft_lt hp
          rw [run_of_step_ok hp hstep]
          exact ih (by omega)
        · rename_i m₁ err hstep
          rw [run_of_step_error hp hstep]

end Spillway.Machine
