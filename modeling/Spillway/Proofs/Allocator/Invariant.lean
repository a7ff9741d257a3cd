import Spillway.Proofs.Allocator.Steps

/-!
# The invariant of the machine

The function that the machine works on is what the spills so far have made of the function it was
started with, and the results that the machine holds are those of this function
(`Machine.Invariant`). The start has the invariant and every step keeps it, also one that fails, so
a machine is consistent after any number of steps (`steps_consistent`).
-/

namespace Spillway

namespace Machine

variable {c : Convention} {f F : Func} {m m' : Machine} {live : Liveness} {g : Interference}

/-! ## Results of an iteration -/

/-- The tables and the graph are those of the function. -/
structure Examined (c : Convention) (F : Func) (live : Liveness) (g : Interference) : Prop where
  analyze : Liveness.analyze c F = .ok live
  build : Interference.build c F live = .ok g

theorem examine_eq_ok (h : examine c F = .ok (live, g)) : Examined c F live g := by
  obtain ⟨live', hlive, h⟩ := bind_eq_ok.mp h
  obtain ⟨g', hg, h⟩ := bind_eq_ok.mp h
  cases h
  exact ⟨inContext_eq_ok.mp hlive, inContext_eq_ok.mp hg⟩

namespace Examined

theorem examine_eq (h : Examined c F live g) : examine c F = .ok (live, g) := by
  unfold examine
  rw [h.analyze, inContext_ok, ok_bind, h.build, inContext_ok, ok_bind]
  rfl

theorem solution (h : Examined c F live g) : Liveness.Solution c F live :=
  Liveness.analyze_solution h.analyze

theorem simple (h : Examined c F live g) : g.graph.Simple :=
  Interference.simple_build h.solution h.build

theorem nodes (h : Examined c F live g) : g.graph.nodes = ⟨c.palette.eraseDups, F.vars⟩ := by
  rw [Interference.nodes_build h.solution.size h.build, h.solution.nodes]

theorem regs (h : Examined c F live g) (hc : c.Accepted) : g.graph.nodes.regs = c.palette := by
  rw [h.nodes]
  exact eraseDups_eq_self hc.nodup

theorem vars (h : Examined c F live g) : g.graph.nodes.vars = F.vars := by
  rw [h.nodes]

/-- A graph of an accepted convention has a coloring or spills. -/
theorem color_isOk (h : Examined c F live g) (hc : c.Accepted) :
    ∃ r, Coloring.color c g.graph = .ok r := Coloring.color_isOk (h.regs hc)

theorem spills (h : Examined c F live g) {vs : List Var}
    (hcolor : Coloring.color c g.graph = .ok (.spilled vs)) : vs ≠ [] ∧ ∀ v ∈ vs, v ∈ F.vars := by
  have hspills := Coloring.color_spilled h.simple hcolor
  rwa [h.vars] at hspills

theorem proper (h : Examined c F live g) (hc : c.Accepted) {a : Assignment}
    (hcolor : Coloring.color c g.graph = .ok (.colored a)) : Coloring.Proper c g.graph a :=
  Coloring.color_colored h.simple hc.nodup (h.vars ▸ F.nodup_vars) hcolor

/-- A coloring of the graph can be assigned. -/
theorem assign_isOk (h : Examined c F live g) (hc : c.Accepted) {a : Assignment}
    (hcolor : Coloring.color c g.graph = .ok (.colored a)) :
    F.assign a = .ok (F.rename (Operand.assign a)) := by
  refine Func.assign_of_assigned h.solution.complete fun v hv => ?_
  exact (h.proper hc hcolor).total v (h.vars ▸ hv)

end Examined

/-! ## The invariant -/

/-- What the machine holds in each phase, when the spills so far have led to the function `F`. -/
inductive Stage (c : Convention) (F : Func) (m : Machine) : Prop
  | analyzing : m.phase = .analyzing → m.func = F → Stage c F m
  | coloring {live : Liveness} {g : Interference} : m.phase = .coloring → m.func = F →
      m.liveness = some live → m.interference = some g → Examined c F live g → Stage c F m
  | spilling {live : Liveness} {g : Interference} {vs : List Var} : m.phase = .spilling →
      m.func = F → m.liveness = some live → m.interference = some g → Examined c F live g →
      m.coloring = some (.spilled vs) → Coloring.color c g.graph = .ok (.spilled vs) → Stage c F m
  | done {live : Liveness} {g : Interference} {a : Assignment} : m.phase = .done →
      m.liveness = some live → m.interference = some g → Examined c F live g →
      m.coloring = some (.colored a) → Coloring.color c g.graph = .ok (.colored a) →
      F.assign a = .ok m.func → Stage c F m

namespace Stage

theorem phase_ne_unknown (h : Stage c F m) : m.phase ≠ .unknown := by
  cases h with
  | analyzing hp => rw [hp]; decide
  | coloring hp => rw [hp]; decide
  | spilling hp => rw [hp]; decide
  | done hp => rw [hp]; decide

theorem func_eq (h : Stage c F m) (hp : m.phase ≠ .done) : m.func = F := by
  cases h with
  | analyzing _ hm => exact hm
  | coloring _ hm => exact hm
  | spilling _ hm => exact hm
  | done hp' => exact absurd hp' hp

theorem of_coloring (h : Stage c F m) (hp : m.phase = .coloring) :
    ∃ live g, m.liveness = some live ∧ m.interference = some g ∧ Examined c F live g := by
  cases h with
  | coloring _ _ hl hg hex => exact ⟨_, _, hl, hg, hex⟩
  | analyzing hp' => rw [hp] at hp'; cases hp'
  | spilling hp' => rw [hp] at hp'; cases hp'
  | done hp' => rw [hp] at hp'; cases hp'

theorem of_spilling (h : Stage c F m) (hp : m.phase = .spilling) :
    ∃ live g vs, m.liveness = some live ∧ m.interference = some g ∧ Examined c F live g ∧
      m.coloring = some (.spilled vs) ∧ Coloring.color c g.graph = .ok (.spilled vs) := by
  cases h with
  | spilling _ _ hl hg hex hr hcolor => exact ⟨_, _, _, hl, hg, hex, hr, hcolor⟩
  | analyzing hp' => rw [hp] at hp'; cases hp'
  | coloring hp' => rw [hp] at hp'; cases hp'
  | done hp' => rw [hp] at hp'; cases hp'

theorem of_done (h : Stage c F m) (hp : m.phase = .done) :
    ∃ live g a, m.liveness = some live ∧ m.interference = some g ∧ Examined c F live g ∧
      m.coloring = some (.colored a) ∧ Coloring.color c g.graph = .ok (.colored a) ∧
      F.assign a = .ok m.func := by
  cases h with
  | done _ hl hg hex hr hcolor hassign => exact ⟨_, _, _, hl, hg, hex, hr, hcolor, hassign⟩
  | analyzing hp' => rw [hp] at hp'; cases hp'
  | coloring hp' => rw [hp] at hp'; cases hp'
  | spilling hp' => rw [hp] at hp'; cases hp'

end Stage

/-- What every machine has that was started with the function `f`. -/
structure Invariant (c : Convention) (f : Func) (m : Machine) : Prop where
  limit : m.limit = f.vars.length + 1
  /-- Before the first iteration nothing has happened. -/
  fresh : m.iteration = 0 → m.phase = .analyzing ∧ m.spilled = []
  /-- Later on, convention and function have passed the checks. -/
  checked : m.iteration ≠ 0 → c.check = .ok () ∧ f.check = .ok ()
  stage : ∃ F, spillAll f m.spilled = .ok F ∧ Stage c F m

/-- The machine that is to allocate a function without missing instructions. -/
def initial (f : Func) : Machine where
  phase := .analyzing
  iteration := 0
  func := f
  liveness := none
  interference := none
  coloring := none
  spilled := []
  limit := f.vars.length + 1

theorem start_eq_ok : start f = .ok m ↔ f.isComplete = true ∧ m = initial f := by
  unfold start
  rw [bind_eq_ok]
  constructor
  · rintro ⟨f', hf, h⟩
    obtain ⟨hc, rfl⟩ := Func.complete_eq_ok.mp hf
    cases h
    exact ⟨hc, rfl⟩
  · rintro ⟨hc, rfl⟩
    exact ⟨f, Func.complete_of_isComplete hc, rfl⟩

theorem invariant_initial (c : Convention) (f : Func) : Invariant c f (initial f) :=
  ⟨rfl, fun _ => ⟨rfl, rfl⟩, fun h => absurd rfl h, f, rfl, .analyzing rfl rfl⟩

namespace Invariant

/-- The checks have been passed once the first iteration has begun. -/
theorem checks_of_precheck (h : Invariant c f m) (hpre : m.precheck c = .ok ()) :
    c.check = .ok () ∧ f.check = .ok () := by
  by_cases hit : m.iteration = 0
  · obtain ⟨hphase, hspilled⟩ := h.fresh hit
    obtain ⟨F, hF, hstage⟩ := h.stage
    rw [hspilled] at hF
    cases hF
    rw [precheck, if_pos hit] at hpre
    obtain ⟨_, hconv, hfunc⟩ := bind_eq_ok.mp hpre
    have hm := hstage.func_eq (by rw [hphase]; decide)
    exact ⟨mapError_eq_ok.mp (inContext_eq_ok.mp hconv), hm ▸ hfunc⟩
  · exact h.checked hit

theorem iteration_ne_zero (h : Invariant c f m) (hp : m.phase ≠ .analyzing) : m.iteration ≠ 0 :=
  fun hit => hp (h.fresh hit).1

theorem accepted (h : Invariant c f m) (hp : m.phase ≠ .analyzing) : c.Accepted :=
  Convention.check_eq_ok_iff.mp (h.checked (h.iteration_ne_zero hp)).1

/-- An iteration that has been counted. -/
theorem nextIteration (h : Invariant c f m) (hp : m.phase = .analyzing)
    (hpre : m.precheck c = .ok ()) : Invariant c f m.nextIteration := by
  obtain ⟨F, hF, hstage⟩ := h.stage
  refine ⟨h.limit, fun hit => absurd hit (Nat.succ_ne_zero _), fun _ => h.checks_of_precheck hpre,
    F, hF, .analyzing hp ?_⟩
  exact hstage.func_eq (by rw [hp]; decide)

/-- Every transition keeps the invariant, whether it fails or not. -/
theorem transition {e : Option Error} (h : Invariant c f m) (ht : Transition c m m' e) :
    Invariant c f m' := by
  obtain ⟨F, hF, hstage⟩ := h.stage
  cases ht with
  | rejected _ _ => exact h
  | exhausted hp hpre _ => exact h.nextIteration hp hpre
  | unexamined hp hpre _ _ => exact h.nextIteration hp hpre
  | examined hp hpre _ hex =>
      have hm : m.func = F := hstage.func_eq (by rw [hp]; decide)
      have hnext := h.nextIteration hp hpre
      exact ⟨h.limit, fun hit => absurd hit (Nat.succ_ne_zero _), hnext.checked, F, hF,
        .coloring rfl hm rfl rfl (examine_eq_ok (hm ▸ hex))⟩
  | graphless _ _ => exact h
  | uncolored _ _ _ => exact h
  | spills hp hg hcolor =>
      have hit := h.iteration_ne_zero (by rw [hp]; decide)
      obtain ⟨live, g, hl, hg', hex⟩ := hstage.of_coloring hp
      rw [hg] at hg'
      cases hg'
      exact ⟨h.limit, fun h0 => absurd h0 hit, h.checked, F, hF,
        .spilling rfl (hstage.func_eq (by rw [hp]; decide)) hl hg hex rfl hcolor⟩
  | unassigned hp _ _ _ =>
      obtain ⟨live, g, hl, hg, hex⟩ := hstage.of_coloring hp
      exact ⟨h.limit, h.fresh, h.checked, F, hF,
        .coloring hp (hstage.func_eq (by rw [hp]; decide)) hl hg hex⟩
  | assigned hp hg hcolor hassign =>
      have hit := h.iteration_ne_zero (by rw [hp]; decide)
      obtain ⟨live, g, hl, hg', hex⟩ := hstage.of_coloring hp
      rw [hg] at hg'
      cases hg'
      have hm : m.func = F := hstage.func_eq (by rw [hp]; decide)
      exact ⟨h.limit, fun h0 => absurd h0 hit, h.checked, F, hF,
        .done rfl hl hg hex rfl hcolor (hm ▸ hassign)⟩
  | resultless _ _ => exact h
  | unspilled _ _ _ => exact h
  | @spilled r f' hp hr hspill =>
      have hit := h.iteration_ne_zero (by rw [hp]; decide)
      have hm : m.func = F := hstage.func_eq (by rw [hp]; decide)
      -- the variables spilled now come after those of earlier iterations
      refine ⟨h.limit, fun h0 => absurd h0 hit, h.checked, f', ?_, .analyzing rfl rfl⟩
      rw [spillAll_append, hF, ok_bind, ← hm]
      exact hspill
  | finished _ => exact h
  | lost _ => exact h

theorem step (h : Invariant c f m) : Invariant c f (m.step c).1 :=
  h.transition (transition_step c m)

theorem steps (h : Invariant c f m) (n : Nat) : Invariant c f (m.steps c n) :=
  steps_induction (fun _ => Invariant.step) h n

end Invariant

/-! ## Consistent machines -/

/-- What can be said of a machine that was started with `f`, in terms of what it holds. -/
structure Consistent (c : Convention) (f : Func) (m : Machine) : Prop where
  name : m.func.name = f.name
  args : m.func.args = f.args
  /-- The labels are defined in the order of the function it was started with. -/
  labels : m.func.code.filterMap Instr.label? = f.code.filterMap Instr.label?
  /-- Every spilled variable is a slot. -/
  locals : m.func.locals = f.locals + Int64.ofNat m.spilled.length
  /-- Before coloring, tables and graph are those of the function. -/
  coloring : m.phase = .coloring → ∃ live g, m.liveness = some live ∧ m.interference = some g ∧
    Liveness.analyze c m.func = .ok live ∧ Interference.build c m.func live = .ok g
  /-- Before spilling, moreover, the graph has no coloring, and what is to be spilled is some of the
  variables of the function. -/
  spilling : m.phase = .spilling → ∃ live g vs, m.liveness = some live ∧
    m.interference = some g ∧ Liveness.analyze c m.func = .ok live ∧
    Interference.build c m.func live = .ok g ∧ m.coloring = some (.spilled vs) ∧
    Coloring.color c g.graph = .ok (.spilled vs) ∧ vs ≠ [] ∧ ∀ v ∈ vs, v ∈ m.func.vars
  /-- When it is done, the function has no variables and is the one that tables and graph describe,
  with the registers of the coloring. -/
  done : m.phase = .done → ∃ F live g r a, m.liveness = some live ∧ m.interference = some g ∧
    Liveness.analyze c F = .ok live ∧ Interference.build c F live = .ok g ∧
    m.coloring = some r ∧ Coloring.color c g.graph = .ok r ∧ r.spills = [] ∧
    r.registers? = some a ∧ F.assign a = .ok m.func ∧ m.func.vars = []

/-- The phases that may follow one another. -/
inductive Follows : Phase → Phase → Prop
  | examined : Follows .analyzing .coloring
  | spills : Follows .coloring .spilling
  | colored : Follows .coloring .done
  | spilled : Follows .spilling .analyzing

theorem labels_rename (f : Func) (ρ : Operand → Operand) :
    (f.rename ρ).code.filterMap Instr.label? = f.code.filterMap Instr.label? := by
  unfold Func.rename
  rw [List.filterMap_map]
  congr 1
  funext i
  cases i <;> rfl

theorem Invariant.consistent (h : Invariant c f m) : Consistent c f m := by
  obtain ⟨F, hF, hstage⟩ := h.stage
  have hto := spilledTo_of_spillAll hF
  have hrest : m.phase ≠ .done → m.func = F := hstage.func_eq
  by_cases hp : m.phase = .done
  · obtain ⟨live, g, a, hl, hg, hex, hr, hcolor, hassign⟩ := hstage.of_done hp
    obtain ⟨hc, hassigned, hm⟩ := Func.assign_eq_ok hassign
    refine ⟨?_, ?_, ?_, ?_, fun h => ?_, fun h => ?_, fun _ => ?_⟩
    · rw [hm]; exact hto.name
    · rw [hm]; exact hto.args
    · rw [hm, labels_rename, hto.labels]
    · rw [hm]; exact hto.locals
    · rw [hp] at h; cases h
    · rw [hp] at h; cases h
    · refine ⟨F, live, g, _, a, hl, hg, hex.analyze, hex.build, hr, hcolor, rfl, rfl, hassign, ?_⟩
      rw [hm]
      exact Func.vars_rename_assign hassigned
  · have hm := hrest hp
    refine ⟨?_, ?_, ?_, ?_, fun h' => ?_, fun h' => ?_, fun h' => absurd h' hp⟩
    · rw [hm]; exact hto.name
    · rw [hm]; exact hto.args
    · rw [hm]; exact hto.labels
    · rw [hm]; exact hto.locals
    · obtain ⟨live, g, hl, hg, hex⟩ := hstage.of_coloring h'
      rw [hm]
      exact ⟨live, g, hl, hg, hex.analyze, hex.build⟩
    · obtain ⟨live, g, vs, hl, hg, hex, hr, hcolor⟩ := hstage.of_spilling h'
      obtain ⟨hne, hvars⟩ := hex.spills hcolor
      rw [hm]
      exact ⟨live, g, vs, hl, hg, hex.analyze, hex.build, hr, hcolor, hne, hvars⟩

theorem Transition.phase_cases {e : Option Error} (h : Transition c m m' e) :
    m'.phase = m.phase ∨ Follows m.phase m'.phase := by
  cases h with
  | examined hp => exact .inr (hp ▸ .examined)
  | spills hp => exact .inr (hp ▸ .spills)
  | assigned hp => exact .inr (hp ▸ .colored)
  | spilled hp => exact .inr (hp ▸ .spilled)
  | _ => exact .inl rfl

/-- A machine is consistent after any number of steps, also of steps that failed. It goes from phase
to phase in a fixed order, and a step that fails leaves phase, function and spilled variables as
they were. -/
theorem steps_consistent (c : Convention) {f : Func} (hf : f.isComplete = true) :
    ∃ m₀, start f = .ok m₀ ∧ m₀.phase = .analyzing ∧ m₀.func = f ∧ m₀.spilled = [] ∧
      ∀ n, Consistent c f (m₀.steps c n) ∧
        ∀ m' e, (m₀.steps c n).step c = (m', e) →
          (m'.phase = (m₀.steps c n).phase ∨ Follows (m₀.steps c n).phase m'.phase) ∧
          (e.isSome → m'.phase = (m₀.steps c n).phase ∧ m'.func = (m₀.steps c n).func ∧
            m'.spilled = (m₀.steps c n).spilled) := by
  refine ⟨initial f, start_eq_ok.mpr ⟨hf, rfl⟩, rfl, rfl, rfl, fun n => ⟨?_, ?_⟩⟩
  · exact ((invariant_initial c f).steps n).consistent
  · intro m' e hstep
    have ht := transition_of_step hstep
    refine ⟨ht.phase_cases, fun he => ?_⟩
    obtain ⟨err, rfl⟩ := Option.isSome_iff_exists.mp he
    exact ht.kept_of_error

end Machine

/-- A convention with two registers. -/
def Convention.tight : Convention where
  palette := [.rcx, .rax]
  stackPointer := .rsp
  shiftCount := .rcx
  result := .rax
  args := [.rcx]
  callerSave := [.rax, .rcx]
  calleeSave := []

/-- A function with an argument on the stack, a shift by a variable and a loop, and with more live
variables than two registers can hold. -/
def Func.pressed : Func where
  name := ⟨"pressed"⟩
  args := 2
  locals := 1
  code := [
    .stackArg (.var ⟨"x"⟩) 0, .mov (.var ⟨"y"⟩) (.reg .rcx), .mov (.var ⟨"z"⟩) (.num 3),
    .store .rsp 0 (.var ⟨"x"⟩), .label ⟨"again"⟩, .shift .shl (.var ⟨"z"⟩) (.var ⟨"y"⟩),
    .arith .add (.var ⟨"x"⟩) (.var ⟨"z"⟩), .cjump .lt (.var ⟨"x"⟩) (.num 64) ⟨"again"⟩ ⟨"out"⟩,
    .label ⟨"out"⟩, .mov (.reg .rax) (.var ⟨"x"⟩), .ret]

theorem Machine.steps_consistent_pressed : Func.pressed.isComplete = true ∧
    ∃ m₀, start Func.pressed = .ok m₀ ∧ Consistent .tight Func.pressed (m₀.steps .tight 100) := by
  have hf : Func.pressed.isComplete = true := by decide
  obtain ⟨m₀, hstart, _, _, _, hsteps⟩ := steps_consistent .tight hf
  exact ⟨hf, m₀, hstart, (hsteps 100).1⟩

end Spillway
