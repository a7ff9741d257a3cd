import Spillway.Proofs.Allocator.Guarded

/-!
# How an allocation ends

Under an accepted convention, allocating a function without missing instructions fails for one of
three reasons: an instruction is not well formed, a jump has no target, or the iterations are used
up. The first two are properties of the function (`allocate_outcome`). No other error comes up in
any iteration, no access goes astray in any, and the number of steps is bounded by the number of
variables.
-/

namespace Spillway

namespace Error

/-- Some instruction is not well formed. -/
def IsMalformed (e : Error) : Prop :=
  ∃ contexts f n i fault, e = .report contexts (.malformedInstr f n i fault)

/-- Some jump has no target. -/
def IsUnresolved (e : Error) : Prop :=
  ∃ contexts n i l, e = .report contexts (.unresolvedLabel n i l)

/-- The iterations are used up. -/
def IsNoProgress (e : Error) : Prop :=
  ∃ contexts iteration limit, e = .report contexts (.noProgress iteration limit)

variable {e : Error} (ctx : Context)

theorem IsMalformed.within (h : e.IsMalformed) : (e.within ctx).IsMalformed := by
  obtain ⟨cs, f, n, i, fault, rfl⟩ := h
  exact ⟨ctx :: cs, f, n, i, fault, rfl⟩

theorem IsUnresolved.within (h : e.IsUnresolved) : (e.within ctx).IsUnresolved := by
  obtain ⟨cs, n, i, l, rfl⟩ := h
  exact ⟨ctx :: cs, n, i, l, rfl⟩

theorem IsNoProgress.within (h : e.IsNoProgress) : (e.within ctx).IsNoProgress := by
  obtain ⟨cs, iteration, limit, rfl⟩ := h
  exact ⟨ctx :: cs, iteration, limit, rfl⟩

/-- No error is of two of these kinds. -/
theorem IsUnresolved.not_isMalformed (h : e.IsUnresolved) : ¬ e.IsMalformed := by
  obtain ⟨cs, n, i, l, rfl⟩ := h
  rintro ⟨cs', f, n', i', fault, h⟩
  cases h

theorem IsNoProgress.not_isMalformed (h : e.IsNoProgress) : ¬ e.IsMalformed := by
  obtain ⟨cs, iteration, limit, rfl⟩ := h
  rintro ⟨cs', f, n, i, fault, h⟩
  cases h

theorem IsNoProgress.not_isUnresolved (h : e.IsNoProgress) : ¬ e.IsUnresolved := by
  obtain ⟨cs, iteration, limit, rfl⟩ := h
  rintro ⟨cs', n, i, l, h⟩
  cases h

end Error

variable {c : Convention} {f F : Func} {e : Error}

/-! ## Errors of the parts -/

theorem Func.check_eq_error (h : f.check = .error e) : e.IsMalformed := by
  obtain ⟨⟨i, n⟩, _, hcheck⟩ := forM_eq_error h
  obtain ⟨fault, _, rfl⟩ := mapError_eq_error.mp hcheck
  exact ⟨[], f.name, n, i, fault, rfl⟩

theorem Liveness.analyze_eq_error (hF : F.isComplete = true) (h : analyze c F = .error e) :
    e.IsUnresolved ∧ ¬ F.Resolves := by
  rcases bind_eq_error.mp h with h | ⟨flow, _, h⟩
  · obtain ⟨e', hresolve, rfl⟩ := inContext_eq_error.mp h
    obtain ⟨⟨n, i, l, rfl⟩, hnot⟩ := Flow.resolve_eq_error hresolve
    exact ⟨⟨[.controlFlow], n, i, l, rfl⟩, hnot⟩
  · rw [Nodes.ofFunc_of_isComplete c hF] at h
    cases h

namespace Machine

variable {m m' : Machine}

/-- Examining a function fails only if a jump has no target. -/
theorem examine_eq_error (hF : F.isComplete = true) (hrsp : Reg.rsp ∉ c.palette)
    (h : examine c F = .error e) : e.IsUnresolved ∧ ¬ F.Resolves := by
  rcases bind_eq_error.mp h with h | ⟨live, hlive, h⟩
  · obtain ⟨e', hanalyze, rfl⟩ := inContext_eq_error.mp h
    obtain ⟨hun, hnot⟩ := Liveness.analyze_eq_error hF hanalyze
    exact ⟨hun.within _, hnot⟩
  · rcases bind_eq_error.mp h with h | ⟨_, _, h⟩
    · obtain ⟨g, hg⟩ := Interference.build_isOk
        (Liveness.analyze_solution (inContext_eq_ok.mp hlive)) hrsp
      rw [hg] at h
      cases h
    · cases h

theorem examine_isOk (hF : F.isComplete = true) (hrsp : Reg.rsp ∉ c.palette) (hres : F.Resolves) :
    ∃ live g, examine c F = .ok (live, g) := by
  cases h : examine c F with
  | ok p => exact ⟨p.1, p.2, rfl⟩
  | error e => exact absurd hres (examine_eq_error hF hrsp h).2

theorem examine_isError (hnot : ¬ F.Resolves) : ∃ e, examine c F = .error e := by
  cases h : examine c F with
  | error e => exact ⟨e, rfl⟩
  | ok p =>
      have hflow := (examine_eq_ok h).solution.flow
      exact absurd (Flow.resolve_eq_ok_iff.mp ⟨_, hflow⟩) hnot

/-! ## Errors of steps -/

/-- A failing step of a machine that was started with `f` has one of three reasons. -/
theorem Invariant.error_cases (h : Invariant c f m) (hc : c.check = .ok ())
    (hrsp : Reg.rsp ∉ c.palette) (hf : f.isComplete = true) (ht : Transition c m m' (some e)) :
    (f.check ≠ .ok () ∧ e.IsMalformed) ∨
      (f.check = .ok () ∧ ((¬ f.Resolves ∧ e.IsUnresolved) ∨ e.IsNoProgress)) := by
  obtain ⟨F, hF, hstage⟩ := h.stage
  have hto := spilledTo_of_spillAll hF
  have hcomplete := hto.complete hf
  have hacc := Convention.check_eq_ok_iff.mp hc
  cases ht with
  | rejected hp hpre =>
      by_cases hit : m.iteration = 0
      · have hm := hstage.func_eq (by rw [hp]; decide)
        rw [(h.fresh hit).2] at hF
        cases hF
        rw [precheck, if_pos hit, hc] at hpre
        have hcheck : f.check = .error e := hm ▸ hpre
        exact .inl ⟨by rw [hcheck]; simp, Func.check_eq_error hcheck⟩
      · rw [precheck, if_neg hit] at hpre
        cases hpre
  | exhausted _ hpre _ =>
      exact .inr ⟨(h.checks_of_precheck hpre).2, .inr ⟨[], _, _, rfl⟩⟩
  | unexamined hp hpre _ hex =>
      rw [hstage.func_eq (by rw [hp]; decide)] at hex
      obtain ⟨hun, hnot⟩ := examine_eq_error hcomplete hrsp hex
      exact .inr ⟨(h.checks_of_precheck hpre).2, .inl ⟨fun hres => hnot (hto.resolves hres), hun⟩⟩
  | graphless hp hg =>
      obtain ⟨live, g, _, hg', _⟩ := hstage.of_coloring hp
      rw [hg] at hg'
      cases hg'
  | uncolored hp hg hcolor =>
      obtain ⟨live, g, _, hg', hex⟩ := hstage.of_coloring hp
      rw [hg] at hg'
      cases hg'
      obtain ⟨r, hr⟩ := hex.color_isOk hacc
      rw [hr] at hcolor
      cases hcolor
  | unassigned hp hg hcolor hassign =>
      obtain ⟨live, g, _, hg', hex⟩ := hstage.of_coloring hp
      rw [hg] at hg'
      cases hg'
      rw [hstage.func_eq (by rw [hp]; decide), hex.assign_isOk hacc hcolor] at hassign
      cases hassign
  | resultless hp hr =>
      obtain ⟨live, g, vs, _, _, _, hr', _⟩ := hstage.of_spilling hp
      rw [hr] at hr'
      cases hr'
  | unspilled hp _ hspill =>
      rw [hstage.func_eq (by rw [hp]; decide)] at hspill
      obtain ⟨g, hg⟩ := spillAll_isOk hcomplete _
      rw [hg] at hspill
      cases hspill
  | lost hp => exact absurd hp hstage.phase_ne_unknown

/-! ## The outcome -/

theorem allocate_eq_run (hf : f.isComplete = true) :
    f.allocate c = match (initial f).run c with
      | .ok m => .ok m.func
      | .error (m, e) => .error (e.within (.allocation f.name m.iteration)) := by
  unfold Func.allocate
  rw [start_eq_ok.mpr ⟨hf, rfl⟩, ok_bind]
  rfl

/-- An allocation that fails does so with the error of a step. -/
theorem allocate_eq_error (hf : f.isComplete = true) (h : f.allocate c = .error e) :
    ∃ n m' e', ((initial f).steps c n).step c = (m', some e') ∧
      e = e'.within (.allocation f.name m'.iteration) := by
  rw [allocate_eq_run hf] at h
  split at h
  · cases h
  · rename_i m' e' hrun
    cases h
    obtain ⟨n, _, hstep⟩ := run_eq_error hrun
    exact ⟨n, m', e', hstep, rfl⟩

theorem initial_ne_done (f : Func) : (initial f).phase ≠ .done := by
  show Phase.analyzing ≠ Phase.done
  decide

theorem precheck_initial (hc : c.check = .ok ()) (f : Func) :
    (initial f).precheck c = f.check := by
  show (inContext _ (c.check.mapError _) >>= fun _ => f.check) = f.check
  rw [hc]
  rfl

/-- The error of a function that does not pass the check. -/
theorem allocate_of_check_error (hc : c.check = .ok ()) (hf : f.isComplete = true)
    (h : f.check = .error e) : f.allocate c = .error (e.within (.allocation f.name 0)) := by
  have hpre : (initial f).precheck c = .error e := (precheck_initial hc f).trans h
  have hstep : (initial f).step c = (initial f, some e) := by
    show (initial f).analyze c = _
    unfold analyze
    rw [hpre]
  rw [allocate_eq_run hf, run_of_step_error (initial_ne_done f) hstep]
  rfl

/-- The first step of a function that passes the check examines it. -/
theorem analyze_initial (hc : c.check = .ok ()) (hcheck : f.check = .ok ()) :
    (initial f).step c = match examine c f with
      | .error e => ((initial f).nextIteration, some e)
      | .ok (live, g) => ({ (initial f).nextIteration with
          liveness := some live, interference := some g, phase := .coloring }, none) := by
  have hpre : (initial f).precheck c = .ok () := (precheck_initial hc f).trans hcheck
  have hlimit : ¬ (initial f).nextIteration.limit < (initial f).nextIteration.iteration := by
    show ¬ f.vars.length + 1 < 0 + 1
    omega
  show (initial f).analyze c = _
  unfold analyze
  rw [hpre]
  simp only [if_neg hlimit]
  rfl

/-- The error of a function with a jump that has no target. -/
theorem allocate_of_examine_error (hc : c.check = .ok ()) (hf : f.isComplete = true)
    (hcheck : f.check = .ok ()) (h : examine c f = .error e) :
    f.allocate c = .error (e.within (.allocation f.name 1)) := by
  have hstep : (initial f).step c = ((initial f).nextIteration, some e) := by
    rw [analyze_initial hc hcheck, h]
  rw [allocate_eq_run hf, run_of_step_error (initial_ne_done f) hstep]
  rfl

end Machine

/-- What is known of the error of an allocation. -/
theorem Func.allocate_error_cases (hc : c.check = .ok ()) (hrsp : Reg.rsp ∉ c.palette)
    (hf : f.isComplete = true) (h : f.allocate c = .error e) :
    (f.check ≠ .ok () ∧ e.IsMalformed) ∨
      (f.check = .ok () ∧ ((¬ f.Resolves ∧ e.IsUnresolved) ∨ e.IsNoProgress)) := by
  obtain ⟨n, m', e', hstep, rfl⟩ := Machine.allocate_eq_error hf h
  have hinv := (Machine.invariant_initial c f).steps n
  -- the context that an allocation adds changes nothing of the reason
  refine (hinv.error_cases hc hrsp hf (Machine.transition_of_step hstep)).imp ?_ ?_
  · exact fun h => ⟨h.1, h.2.within _⟩
  · exact fun h => ⟨h.1, h.2.imp (fun h => ⟨h.1, h.2.within _⟩) (fun h => h.within _)⟩

open Machine in
/-- What becomes of an allocation under an accepted convention. It never meets a defect, none of its
accesses goes astray, and it needs at most three steps for each of as many iterations as there are
variables and one more. It fails for an instruction that is not well formed exactly if there is one,
otherwise for a jump without a target exactly if there is one, and otherwise it succeeds or uses up
its iterations. No step of any iteration, be it after a step that failed, goes astray or fails for
another reason. -/
theorem Func.allocate_outcome (hc : c.check = .ok ()) (hsp : c.stackPointer = Reg.rsp)
    (hf : f.isComplete = true) :
    ((∃ e, f.allocate c = .error e ∧ e.IsMalformed) ↔ f.check ≠ .ok ()) ∧
    (f.check = .ok () →
      ((∃ e, f.allocate c = .error e ∧ e.IsUnresolved) ↔ ¬ f.Resolves)) ∧
    (f.check = .ok () → f.Resolves →
      (∃ r, f.allocate c = .ok r) ∨ ∃ e, f.allocate c = .error e ∧ e.IsNoProgress) ∧
    (∀ d, f.allocate c ≠ .error (.defect d)) ∧
    (∀ n, 3 * (f.vars.length + 1) + 1 ≤ n → Guarded.allocate n c f = .done (f.allocate c)) ∧
    ∃ m, start f = .ok m ∧
      m.runWithin c (3 * (f.vars.length + 1) + 1) = some (m.run c) ∧
      (∀ n, Guarded.step c (m.steps c n) = pure ((m.steps c n).step c)) ∧
      ∀ n m' e, (m.steps c n).step c = (m', some e) →
        e.IsMalformed ∨ e.IsUnresolved ∨ e.IsNoProgress := by
  have hrsp : Reg.rsp ∉ c.palette := hsp ▸ (Convention.check_eq_ok_iff.mp hc).stackPointer
  have herror := fun e => Func.allocate_error_cases (e := e) hc hrsp hf
  refine ⟨⟨?_, ?_⟩, fun hcheck => ⟨?_, ?_⟩, fun hcheck hres => ?_, fun d hd => ?_,
    fun n hn => Guarded.allocate_eq hn hrsp, initial f, start_eq_ok.mpr ⟨hf, rfl⟩, ?_, ?_, ?_⟩
  · rintro ⟨e, he, hmal⟩
    rcases herror e he with h | ⟨_, h | h⟩
    · exact h.1
    · exact absurd hmal h.2.not_isMalformed
    · exact absurd hmal h.not_isMalformed
  · intro hcheck
    cases h : f.check with
    | ok _ => exact absurd h hcheck
    | error e =>
        exact ⟨_, allocate_of_check_error hc hf h, (Func.check_eq_error h).within _⟩
  · rintro ⟨e, he, hun⟩
    rcases herror e he with h | ⟨_, h | h⟩
    · exact absurd hcheck h.1
    · exact h.1
    · exact absurd hun h.not_isUnresolved
  · intro hnot
    obtain ⟨e, he⟩ := examine_isError (c := c) hnot
    exact ⟨_, allocate_of_examine_error hc hf hcheck he, (examine_eq_error hf hrsp he).1.within _⟩
  · cases halloc : f.allocate c with
    | ok r => exact .inl ⟨r, rfl⟩
    | error e =>
        rcases herror e halloc with h | ⟨_, h | h⟩
        · exact absurd hcheck h.1
        · exact absurd hres h.1
        · exact .inr ⟨e, rfl, h⟩
  · rcases herror _ hd with h | ⟨_, h | h⟩
    · obtain ⟨_, _, _, _, _, h⟩ := h.2
      cases h
    · obtain ⟨_, _, _, _, h⟩ := h.2
      cases h
    · obtain ⟨_, _, _, h⟩ := h
      cases h
  · exact runWithin_eq_run (Nat.le_refl _)
  · intro n
    exact Guarded.step_eq ((invariant_initial c f).steps n) hrsp
  · intro n m' e hstep
    have hinv := (invariant_initial c f).steps n
    rcases hinv.error_cases hc hrsp hf (transition_of_step hstep) with h | ⟨_, h | h⟩
    · exact .inl h.2
    · exact .inr (.inl h.2)
    · exact .inr (.inr h)

/-- Two registers are enough for this function, in at most thirteen steps. -/
theorem Func.allocate_outcome_pressed :
    Convention.tight.check = .ok () ∧ Convention.tight.stackPointer = Reg.rsp ∧
    pressed.isComplete = true ∧ pressed.check = .ok () ∧ pressed.Resolves ∧
    ∃ r, pressed.allocate .tight = .ok r ∧ Guarded.allocate 13 .tight pressed = .done (.ok r) := by
  have hc : Convention.tight.check = .ok () := by decide
  have hf : pressed.isComplete = true := by decide
  have hcheck : pressed.check = .ok () := by decide
  have hres : pressed.Resolves := by unfold Func.Resolves; decide
  obtain ⟨_, _, hends, _, hguarded, _⟩ := allocate_outcome hc rfl hf
  rcases hends hcheck hres with ⟨r, hr⟩ | ⟨e, he, _⟩
  · exact ⟨hc, rfl, hf, hcheck, hres, r, hr, hr ▸ hguarded 13 (by decide)⟩
  · have hok : (pressed.allocate .tight).toOption.isSome := by decide +kernel
    rw [he] at hok
    cases hok

end Spillway
