import Mathlib.Data.List.Perm.Subperm
import Spillway.Proofs.Allocator.Output

/-!
# Iterations of an allocation

An iteration has a spill set: the variables for which it finds no register (`Func.spillSet`). The
next iteration works on what spilling them makes of the function (`Func.spillSetAt`), until a spill
set is empty or as many iterations have spilled as there are variables, and one more
(`Func.allocate_rounds`).

Spilling need not come to an end, because the temporaries of a spilled variable are variables too
and may be spilled in turn. It does if every iteration that spills takes a variable of the function
that none has taken before (`Func.not_forall_spills`), since there are only so many of them. A
temporary that counts a shift while `rcx` is needed for something else is spilled again and again
(`Func.allocate_systemV_counting`).
-/

namespace Spillway

namespace Func

/-- The variables for which an iteration finds no register. -/
def spillSet (c : Convention) (f : Func) : Except Error (List Var) := do
  let (_, g) ← Machine.examine c f
  let result ← Coloring.color c g.graph
  return result.spills

/-- The spill set of an iteration. The first iteration has number zero. -/
def spillSetAt (c : Convention) : Nat → Func → Except Error (List Var)
  | 0, f => f.spillSet c
  | n + 1, f => do
    let vs ← f.spillSet c
    let g ← Machine.spillAll f vs
    g.spillSetAt c n

/-- The error of an allocation that has used up its iterations. -/
def outOfIterations (f : Func) : Error :=
  (Error.of (.noProgress (f.vars.length + 2) (f.vars.length + 1))).within
    (.allocation f.name (f.vars.length + 2))

end Func

namespace Machine

variable {c : Convention} {m : Machine} {live : Liveness} {g : Interference} {G : Func}
  {vs : List Var}

/-! ## The steps of an iteration -/

theorem step_of_exhausted (hp : m.phase = .analyzing) (hpre : m.precheck c = .ok ())
    (hlimit : m.limit < m.iteration + 1) :
    m.step c = (m.nextIteration, some (.of (.noProgress (m.iteration + 1) m.limit))) := by
  have hlimit' : m.nextIteration.limit < m.nextIteration.iteration := hlimit
  unfold step analyze
  simp only [hp, hpre, if_pos hlimit']
  rfl

theorem step_of_examined (hp : m.phase = .analyzing) (hpre : m.precheck c = .ok ())
    (hlimit : m.iteration + 1 ≤ m.limit) (hex : examine c m.func = .ok (live, g)) :
    ∃ m' : Machine, m.step c = (m', none) ∧ m'.phase = .coloring ∧ m'.interference = some g ∧
      m'.func = m.func ∧ m'.iteration = m.iteration + 1 ∧ m'.limit = m.limit := by
  have hlimit' : ¬ m.nextIteration.limit < m.nextIteration.iteration := Nat.not_lt.mpr hlimit
  have hex' : examine c m.nextIteration.func = .ok (live, g) := hex
  unfold step analyze
  simp only [hp, hpre, if_neg hlimit', hex']
  exact ⟨_, rfl, rfl, rfl, rfl, rfl, rfl⟩

theorem step_of_spilled (hp : m.phase = .coloring) (hg : m.interference = some g)
    (hcolor : Coloring.color c g.graph = .ok (.spilled vs)) :
    m.step c = ({ m with coloring := some (.spilled vs), phase := .spilling }, none) := by
  have hcolor' : inContext .coloring (Coloring.color c g.graph) = .ok (.spilled vs) :=
    inContext_eq_ok.mpr hcolor
  unfold step color
  simp only [hp, hg, hcolor']

theorem step_of_spillAll (hp : m.phase = .spilling) (hr : m.coloring = some (.spilled vs))
    (hG : spillAll m.func vs = .ok G) :
    m.step c = ({ m with func := G, spilled := m.spilled ++ vs, phase := .analyzing }, none) := by
  unfold step spill
  simp only [hp, hr, Coloring.spills, hG]

/-! ## Iterations -/

/-- An iteration without spills is the last one. -/
theorem run_of_colored (hp : m.phase = .analyzing) (hpre : m.precheck c = .ok ())
    (hlimit : m.iteration + 1 ≤ m.limit) (hex : examine c m.func = .ok (live, g))
    (hc : c.Accepted) {a : Assignment} (hcolor : Coloring.color c g.graph = .ok (.colored a)) :
    ∃ m' : Machine, m.run c = .ok m' := by
  obtain ⟨m₁, hstep, hp₁, hg₁, hf₁, _⟩ := step_of_examined hp hpre hlimit hex
  have hassign := (examine_eq_ok hex).assign_isOk hc hcolor
  rw [← hf₁] at hassign
  rw [run_of_step_ok (by rw [hp]; decide) hstep,
    run_of_step_ok (by rw [hp₁]; decide) (step_of_colored hp₁ hg₁ hcolor hassign), run_of_done rfl]
  exact ⟨_, rfl⟩

/-- After an iteration with spills the machine goes on with what they make of the function. -/
theorem run_of_spilled (hp : m.phase = .analyzing) (hpre : m.precheck c = .ok ())
    (hlimit : m.iteration + 1 ≤ m.limit) (hex : examine c m.func = .ok (live, g))
    (hcolor : Coloring.color c g.graph = .ok (.spilled vs)) (hG : spillAll m.func vs = .ok G) :
    ∃ m' : Machine, m.run c = m'.run c ∧ m'.phase = .analyzing ∧ m'.func = G ∧
      m'.iteration = m.iteration + 1 ∧ m'.limit = m.limit := by
  obtain ⟨m₁, hstep, hp₁, hg₁, hf₁, hit₁, hlimit₁⟩ := step_of_examined hp hpre hlimit hex
  rw [← hf₁] at hG
  let m₂ : Machine := { m₁ with coloring := some (.spilled vs), phase := .spilling }
  let m₃ : Machine := { m₂ with func := G, spilled := m₂.spilled ++ vs, phase := .analyzing }
  have hstep₂ : m₂.step c = (m₃, none) := step_of_spillAll rfl rfl hG
  refine ⟨m₃, ?_, rfl, rfl, hit₁, hlimit₁⟩
  calc m.run c
    _ = m₁.run c := run_of_step_ok (by rw [hp]; decide) hstep
    _ = m₂.run c := run_of_step_ok (by rw [hp₁]; decide) (step_of_spilled hp₁ hg₁ hcolor)
    _ = m₃.run c := run_of_step_ok (by simp [m₂]) hstep₂

/-- A machine with `k` iterations left finds an empty spill set in one of them and is done, or
spills in all of them and fails. -/
theorem run_rounds (hc : c.Accepted) (hrsp : Reg.rsp ∉ c.palette) {k : Nat}
    (hp : m.phase = .analyzing) (hpre : m.precheck c = .ok ()) (hk : m.limit = m.iteration + k)
    (hF : m.func.isComplete = true) (hres : m.func.Resolves) :
    (∃ n < k, m.func.spillSetAt c n = .ok [] ∧ ∃ m', m.run c = .ok m') ∨
      ((∀ n < k, ∃ vs, vs ≠ [] ∧ m.func.spillSetAt c n = .ok vs) ∧
        ∃ m' : Machine, m'.iteration = m.limit + 1 ∧
          m.run c = .error (m', .of (.noProgress (m.limit + 1) m.limit))) := by
  induction k generalizing m with
  | zero =>
      have hlimit : m.limit = m.iteration := hk
      refine .inr ⟨fun n hn => absurd hn (Nat.not_lt_zero n), m.nextIteration, ?_, ?_⟩
      · rw [hlimit]
        rfl
      · have hstep := step_of_exhausted hp hpre (by omega)
        rw [run_of_step_error (by rw [hp]; decide) hstep, hlimit]
  | succ k ih =>
      have hlimit : m.iteration + 1 ≤ m.limit := by omega
      obtain ⟨live, g, hex⟩ := examine_isOk hF hrsp hres
      obtain ⟨result, hcolor⟩ := (examine_eq_ok hex).color_isOk hc
      have hset : m.func.spillSet c = .ok result.spills := by
        unfold Func.spillSet
        rw [hex, ok_bind]
        simp only [hcolor, ok_bind]
        rfl
      cases result with
      | colored a =>
          exact .inl ⟨0, Nat.succ_pos k, hset, run_of_colored hp hpre hlimit hex hc hcolor⟩
      | spilled vs =>
          obtain ⟨G, hG⟩ := spillAll_isOk hF vs
          obtain ⟨m', hrun, hp', rfl, hit', hlimit'⟩ :=
            run_of_spilled hp hpre hlimit hex hcolor hG
          have hto := spilledTo_of_spillAll hG
          have hpre' : m'.precheck c = .ok () := by
            rw [precheck, if_neg (by omega)]
          have hset' : ∀ n, m.func.spillSetAt c (n + 1) = m'.func.spillSetAt c n := by
            intro n
            rw [Func.spillSetAt, hset, ok_bind, Coloring.spills, hG, ok_bind]
          have hrest := ih hp' hpre' (by omega) (hto.complete hF) (hto.resolves hres)
          rw [hrun, ← hlimit']
          refine hrest.imp ?_ ?_
          · rintro ⟨n, hn, hnil, hok⟩
            exact ⟨n + 1, Nat.succ_lt_succ hn, (hset' n).trans hnil, hok⟩
          · rintro ⟨hall, herror⟩
            refine ⟨fun n hn => ?_, herror⟩
            cases n with
            | zero => exact ⟨vs, ((examine_eq_ok hex).spills hcolor).1, hset⟩
            | succ n =>
                rw [hset']
                exact hall n (Nat.lt_of_succ_lt_succ hn)

end Machine

namespace Func

variable {c : Convention} {f : Func}

/-- An allocation of a well-formed function whose jumps have their targets finds an empty spill set
in one of its iterations and succeeds, or has none left. -/
theorem allocate_rounds (hc : c.check = .ok ()) (hrsp : Reg.rsp ∉ c.palette)
    (hf : f.check = .ok ()) (hres : f.Resolves) :
    (∃ n ≤ f.vars.length, f.spillSetAt c n = .ok [] ∧ ∃ r, f.allocate c = .ok r) ∨
      ((∀ n ≤ f.vars.length, ∃ vs, vs ≠ [] ∧ f.spillSetAt c n = .ok vs) ∧
        f.allocate c = .error f.outOfIterations) := by
  have hcomplete := isComplete_of_check hf
  have hpre : (Machine.initial f).precheck c = .ok () := (Machine.precheck_initial hc f).trans hf
  have hrounds := Machine.run_rounds (k := f.vars.length + 1) (Convention.check_eq_ok_iff.mp hc)
    hrsp rfl hpre (Nat.zero_add _).symm hcomplete hres
  rw [Machine.allocate_eq_run hcomplete]
  refine hrounds.imp ?_ ?_
  · rintro ⟨n, hn, hnil, m', hrun⟩
    refine ⟨n, Nat.le_of_lt_succ hn, hnil, m'.func, ?_⟩
    rw [hrun]
  · rintro ⟨hall, m', hit, hrun⟩
    refine ⟨fun n hn => hall n (Nat.lt_succ_of_le hn), ?_⟩
    rw [hrun]
    simp only [hit]
    rfl

/-- If the iteration spills, then also a variable of the function that none before it has
spilled. -/
def SpillsAnew (c : Convention) (f : Func) (n : Nat) : Prop :=
  ∀ vs, f.spillSetAt c n = .ok vs → vs ≠ [] →
    ∃ v ∈ vs, v ∈ f.vars ∧ ∀ k < n, ∀ ws, f.spillSetAt c k = .ok ws → v ∉ ws

/-- There are not enough variables for every iteration to spill another one. -/
theorem not_forall_spills (hanew : ∀ n ≤ f.vars.length, f.SpillsAnew c n) :
    ¬ ∀ n ≤ f.vars.length, ∃ vs, vs ≠ [] ∧ f.spillSetAt c n = .ok vs := by
  intro hspills
  have hnew : ∀ n, ∃ v, n ≤ f.vars.length → v ∈ f.vars ∧
      (∃ vs, f.spillSetAt c n = .ok vs ∧ v ∈ vs) ∧
      ∀ k < n, ∀ ws, f.spillSetAt c k = .ok ws → v ∉ ws := by
    intro n
    by_cases hn : n ≤ f.vars.length
    · obtain ⟨vs, hne, hset⟩ := hspills n hn
      obtain ⟨v, hv, hvars, hearlier⟩ := hanew n hn vs hset hne
      exact ⟨v, fun _ => ⟨hvars, ⟨vs, hset, hv⟩, hearlier⟩⟩
    · exact ⟨⟨""⟩, fun h => absurd h hn⟩
  choose pick hpick using hnew
  have hlt : ∀ {n}, n ∈ List.range (f.vars.length + 1) → n ≤ f.vars.length :=
    fun h => Nat.le_of_lt_succ (List.mem_range.mp h)
  have hnodup : ((List.range (f.vars.length + 1)).map pick).Nodup := by
    refine List.pairwise_map.mpr (List.pairwise_lt_range.imp_of_mem fun hk hn hkn heq => ?_)
    obtain ⟨_, ⟨vs, hset, hmem⟩, _⟩ := hpick _ (hlt hk)
    exact (hpick _ (hlt hn)).2.2 _ hkn vs hset (heq ▸ hmem)
  have hsub : (List.range (f.vars.length + 1)).map pick ⊆ f.vars := by
    intro v hv
    obtain ⟨n, hn, rfl⟩ := List.mem_map.mp hv
    exact (hpick n (hlt hn)).1
  have hle := (List.subperm_of_subset hnodup hsub).length_le
  rw [List.length_map, List.length_range] at hle
  omega

theorem not_forall_spills_of_nil {n : Nat} (hn : n ≤ f.vars.length)
    (hnil : f.spillSetAt c n = .ok []) :
    ¬ ∀ n ≤ f.vars.length, ∃ vs, vs ≠ [] ∧ f.spillSetAt c n = .ok vs := by
  intro hspills
  obtain ⟨vs, hne, hset⟩ := hspills n hn
  rw [hnil] at hset
  exact hne (Except.ok.inj hset).symm

/-- How an allocation under the System V convention ends. It succeeds exactly if one of the
iterations that are allowed has an empty spill set, and fails exactly if none has, for want of an
iteration. If every iteration that spills takes a variable of the function that none has taken
before, it succeeds. -/
theorem allocate_systemV_rounds (hf : f.check = .ok ()) (hres : f.Resolves) :
    ((∃ r, f.allocate .systemV = .ok r) ↔
      ∃ n ≤ f.vars.length, f.spillSetAt .systemV n = .ok []) ∧
    (∀ e, f.allocate .systemV = .error e ↔ e = f.outOfIterations ∧
      ∀ n ≤ f.vars.length, ∃ vs, vs ≠ [] ∧ f.spillSetAt .systemV n = .ok vs) ∧
    ((∀ n ≤ f.vars.length, f.SpillsAnew .systemV n) → ∃ r, f.allocate .systemV = .ok r) := by
  rcases allocate_rounds (c := .systemV) (by decide) (by decide) hf hres with
    ⟨n, hn, hnil, r, hr⟩ | ⟨hall, herror⟩
  · refine ⟨⟨fun _ => ⟨n, hn, hnil⟩, fun _ => ⟨r, hr⟩⟩, fun e => ⟨fun he => ?_, ?_⟩,
      fun _ => ⟨r, hr⟩⟩
    · rw [hr] at he
      cases he
    · rintro ⟨_, hall⟩
      exact absurd hall (not_forall_spills_of_nil hn hnil)
  · rw [herror]
    refine ⟨⟨?_, ?_⟩, fun e => ⟨fun he => ⟨(Except.error.inj he).symm, hall⟩, ?_⟩, fun hanew => ?_⟩
    · rintro ⟨r, hr⟩
      cases hr
    · rintro ⟨n, hn, hnil⟩
      exact absurd hall (not_forall_spills_of_nil hn hnil)
    · rintro ⟨rfl, _⟩
      rfl
    · exact absurd hall (not_forall_spills hanew)

/-- A shift by a variable while something else is in `rcx`. -/
def counting : Func where
  name := ⟨"counting"⟩
  args := 0
  locals := 0
  code := [
    .mov (.var ⟨"n"⟩) (.num 4), .shift .shl (.reg .rax) (.var ⟨"n"⟩),
    .mov (.reg .rdi) (.reg .rcx), .ret]

theorem check_counting : counting.check = .ok () := by decide

theorem resolves_counting : counting.Resolves := by
  unfold Resolves
  decide

theorem allocate_counting_eq_error : ∃ e, counting.allocate .systemV = .error e := by
  have hfails : (counting.allocate .systemV).isOk = false := by decide +kernel
  cases h : counting.allocate .systemV with
  | error e => exact ⟨e, rfl⟩
  | ok r =>
      rw [h] at hfails
      cases hfails

/-- A shift by a variable that is there while something else is in `rcx`, which is free by the time
of the shift. -/
def waiting : Func where
  name := ⟨"waiting"⟩
  args := 0
  locals := 0
  code := [
    .mov (.var ⟨"n"⟩) (.num 4), .mov (.reg .rdi) (.reg .rcx),
    .shift .shl (.reg .rax) (.var ⟨"n"⟩), .ret]

theorem spillSetAt_waiting : waiting.spillSetAt .systemV 0 = .ok [⟨"n"⟩] ∧
    waiting.spillSetAt .systemV 1 = .ok [] := by
  have hfirst : waiting.spillSet .systemV = .ok [⟨"n"⟩] := toOption_eq_some.mp (by decide +kernel)
  have hsecond : (Machine.spillAll waiting [⟨"n"⟩] >>= spillSet .systemV) = .ok [] :=
    toOption_eq_some.mp (by decide +kernel)
  refine ⟨hfirst, ?_⟩
  rw [spillSetAt, hfirst, ok_bind]
  exact hsecond

/-- The first iteration spills the only variable, and the temporary it gets is spilled by none. -/
theorem spillsAnew_waiting : ∀ n ≤ waiting.vars.length, waiting.SpillsAnew .systemV n := by
  obtain ⟨hfirst, hsecond⟩ := spillSetAt_waiting
  intro n hn vs hset hne
  have hn : n ≤ 1 := hn
  rcases Nat.le_one_iff_eq_zero_or_eq_one.mp hn with rfl | rfl
  · rw [hfirst] at hset
    cases hset
    exact ⟨⟨"n"⟩, List.mem_singleton.mpr rfl, by decide, fun k hk => absurd hk (Nat.not_lt_zero k)⟩
  · rw [hsecond] at hset
    cases hset
    exact absurd rfl hne

/-- An allocation that spills and succeeds, and one that spills in every iteration. -/
theorem allocate_systemV_rounds_counting :
    (waiting.check = .ok () ∧ waiting.Resolves ∧ waiting.spillSetAt .systemV 0 = .ok [⟨"n"⟩] ∧
      (∀ n ≤ waiting.vars.length, waiting.SpillsAnew .systemV n) ∧
      ∃ r, waiting.allocate .systemV = .ok r) ∧
    counting.check = .ok () ∧ counting.Resolves ∧
      ∀ n ≤ 1, ∃ vs, vs ≠ [] ∧ counting.spillSetAt .systemV n = .ok vs := by
  constructor
  · have hcheck : waiting.check = .ok () := by decide
    have hres : waiting.Resolves := by unfold Resolves; decide
    have hrounds := allocate_systemV_rounds hcheck hres
    exact ⟨hcheck, hres, spillSetAt_waiting.1, spillsAnew_waiting,
      hrounds.2.2 spillsAnew_waiting⟩
  · obtain ⟨e, he⟩ := allocate_counting_eq_error
    have hrounds := (allocate_systemV_rounds check_counting resolves_counting).2.1 e
    exact ⟨check_counting, resolves_counting, (hrounds.mp he).2⟩

/-- The temporary that counts the shift is live when `rcx` is, and no other register will do. -/
theorem allocate_systemV_counting : counting.check = .ok () ∧ counting.Resolves ∧
    ∃ e, counting.allocate .systemV = .error e ∧ e.IsNoProgress := by
  refine ⟨check_counting, resolves_counting, ?_⟩
  obtain ⟨e, he⟩ := allocate_counting_eq_error
  have hrounds := allocate_rounds (c := .systemV) (by decide) (by decide) check_counting
    resolves_counting
  rcases hrounds with ⟨_, _, _, r, hr⟩ | ⟨_, herror⟩
  · rw [he] at hr
    cases hr
  · exact ⟨_, herror, _, _, _, rfl⟩

end Func

end Spillway
