import Spillway.Proofs.Liveness.Fixpoint

/-!
# Liveness tables are exact

A node is awaited at a place if some path from there leads to an instruction that uses it, past
none that defines it (`Liveness.Awaited`). The tables list exactly the awaited nodes
(`Liveness.Exact.path`):

* whatever is listed is awaited, since no row starts with anything and each time a row is
  recomputed it lists only what its successors justify (`Justified`, `Updates.justified`);
* whatever is awaited is listed once no row changes any more (`Closed.mem_before`).

Neither depends on the order in which rows are recomputed, so every order that comes to rest ends
with the same sets (`Exact.order`). The one that the analysis takes, pass by pass, comes to rest,
and the analysis notices it at once (`Exact.stops`).
-/

namespace Spillway.Liveness

variable {succ : Array (List Nat)} {start rows rows' : Array Row} {n j k size : Nat}

/-! ## Paths to a use -/

/-- The places `p 0, ..., p m` come one after the other, the last one uses `k`, and none of the
others defines it. -/
structure UsePath (succ : Array (List Nat)) (rows : Array Row) (k : Nat) (p : Nat → Nat) (m : Nat) :
    Prop where
  next : ∀ j < m, p (j + 1) ∈ succ.getD (p j) []
  kept : ∀ j < m, k ∉ (row rows (p j)).kill
  used : k ∈ (row rows (p m)).gen

/-- Some path from place `n` uses `k` before it defines it. -/
def Awaited (succ : Array (List Nat)) (rows : Array Row) (k n : Nat) : Prop :=
  ∃ m p, p 0 = n ∧ UsePath succ rows k p m

namespace Awaited

theorem used (h : k ∈ (row rows n).gen) : Awaited succ rows k n := by
  refine ⟨0, fun _ => n, rfl, ?_, ?_, h⟩
  · intro i hi
    omega
  · intro i hi
    omega

/-- A path may be prolonged by a place in front of it. -/
theorem kept (hj : j ∈ succ.getD n []) (hk : k ∉ (row rows n).kill)
    (h : Awaited succ rows k j) : Awaited succ rows k n := by
  obtain ⟨m, p, rfl, hp⟩ := h
  refine ⟨m + 1, fun i => if i = 0 then n else p (i - 1), rfl, ?_, ?_, hp.used⟩
  · intro i hi
    cases i with
    | zero => exact hj
    | succ i => exact hp.next i (by omega)
  · intro i hi
    cases i with
    | zero => exact hk
    | succ i => exact hp.kept i (by omega)

/-- What holds where `k` is used, and is carried backwards where it is not defined, holds wherever
`k` is awaited. -/
theorem backwards {P : Nat → Prop} (hused : ∀ n, k ∈ (row rows n).gen → P n)
    (hkept : ∀ n j, j ∈ succ.getD n [] → k ∉ (row rows n).kill → P j → P n)
    (h : Awaited succ rows k n) : P n := by
  obtain ⟨m, p, rfl, hp⟩ := h
  induction m generalizing p with
  | zero => exact hused _ hp.used
  | succ m ih =>
      have htail : UsePath succ rows k (fun i => p (i + 1)) m := by
        refine ⟨fun i hi => ?_, fun i hi => ?_, hp.used⟩
        · exact hp.next (i + 1) (by omega)
        · exact hp.kept (i + 1) (by omega)
      exact hkept (p 0) (p 1) (hp.next 0 (by omega)) (hp.kept 0 (by omega)) (ih _ htail)

/-- Only the effects of the rows matter. -/
theorem of_effects (hgen : ∀ n, (row rows' n).gen = (row rows n).gen)
    (hkill : ∀ n, (row rows' n).kill = (row rows n).kill) (h : Awaited succ rows k n) :
    Awaited succ rows' k n := by
  refine h.backwards (fun n hn => ?_) (fun n j hj hk hawaited => ?_)
  · exact .used (by rwa [hgen])
  · exact .kept hj (by rwa [hkill]) hawaited

end Awaited

theorem Within.awaited_iff (h : Within rows rows') :
    Awaited succ rows' k n ↔ Awaited succ rows k n := by
  constructor
  · exact .of_effects (fun n => (h.rows n).gen.symm) (fun n => (h.rows n).kill.symm)
  · exact .of_effects (fun n => (h.rows n).gen) (fun n => (h.rows n).kill)

/-! ## Whatever is listed is awaited -/

/-- Every node that is listed is awaited. -/
structure Justified (succ : Array (List Nat)) (rows : Array Row) : Prop where
  before : ∀ n, ∀ k ∈ (row rows n).before, Awaited succ rows k n
  after : ∀ n, ∀ k ∈ (row rows n).after, ∃ j ∈ succ.getD n [], Awaited succ rows k j

/-- Recomputing a row leaves its effect as it is. -/
theorem Awaited.update (h : Awaited succ rows k n) (i : Nat) :
    Awaited succ (update succ rows i) k n := by
  refine h.of_effects (fun n => ?_) (fun n => ?_)
  · rw [row_update]
    split <;> rfl
  · rw [row_update]
    split <;> rfl

/-- A row that is recomputed lists what its successors list, which is awaited there. -/
theorem Justified.update (h : Justified succ rows) (i : Nat) :
    Justified succ (update succ rows i) := by
  have hjoined : ∀ n, ∀ k ∈ joined rows (succ.getD n []),
      ∃ j ∈ succ.getD n [], Awaited succ rows k j := by
    intro n k hk
    obtain ⟨j, hj, hkj⟩ := mem_joined.mp hk
    exact ⟨j, hj, h.before j k hkj⟩
  constructor
  · intro n k hk
    refine Awaited.update ?_ i
    rw [row_update] at hk
    split at hk
    · simp only [recomputed, BitSet.mem_union, BitSet.mem_diff] at hk
      rcases hk with ⟨hafter, hnot⟩ | hused
      · obtain ⟨j, hj, hawaited⟩ := hjoined n k hafter
        exact .kept hj hnot hawaited
      · exact .used hused
    · exact h.before n k hk
  · intro n k hk
    have hold : ∃ j ∈ succ.getD n [], Awaited succ rows k j := by
      rw [row_update] at hk
      split at hk
      · exact hjoined n k hk
      · exact h.after n k hk
    obtain ⟨j, hj, hawaited⟩ := hold
    exact ⟨j, hj, hawaited.update i⟩

/-- Sets that contain what is used, and are carried backwards, contain whatever is justified. -/
theorem Justified.least (h : Justified succ rows) {before after : Nat → Nat → Prop}
    (hused : ∀ n k, k ∈ (row rows n).gen → before n k)
    (hkept : ∀ n k, after n k → k ∉ (row rows n).kill → before n k)
    (hafter : ∀ n k, ∀ j ∈ succ.getD n [], before j k → after n k) (n k : Nat) :
    (k ∈ (row rows n).before → before n k) ∧ (k ∈ (row rows n).after → after n k) := by
  have hawaited : ∀ {n}, Awaited succ rows k n → before n k := by
    intro n hk
    refine hk.backwards (P := fun n => before n k) (fun n => hused n k) ?_
    intro n j hj hnot hbefore
    exact hkept n k (hafter n k j hj hbefore) hnot
  constructor
  · exact fun hk => hawaited (h.before n k hk)
  · intro hk
    obtain ⟨j, hj, hkj⟩ := h.after n k hk
    exact hafter n k j hj (hawaited hkj)

/-! ## Recomputing rows in any order -/

/-- Rows that come from `start` by recomputing one after the other, in whatever order. -/
inductive Updates (succ : Array (List Nat)) (start : Array Row) : Array Row → Prop
  | none : Updates succ start start
  | one {rows : Array Row} (i : Nat) : Updates succ start rows →
      Updates succ start (update succ rows i)

namespace Updates

theorem pass (h : Updates succ start rows) : Updates succ start (pass succ rows) := by
  unfold Liveness.pass
  generalize List.range rows.size = places
  induction places with
  | nil => exact h
  | cons i places ih => exact .one i ih

theorem iterate (h : Updates succ start rows) (size done : Nat) :
    Updates succ start (iterate size succ rows done).1 := by
  induction rows, done using iterate.induct size succ with
  | case1 rows done next hlt ih =>
      rw [Liveness.iterate, if_pos hlt]
      exact ih h.pass
  | case2 rows done next hlt =>
      rw [Liveness.iterate, if_neg hlt]
      exact h.pass

theorem justified (h : Updates succ start rows) (hstart : Justified succ start) :
    Justified succ rows := by
  induction h with
  | none => exact hstart
  | one i _ ih => exact ih.update i

theorem ascending (h : Updates succ start rows) (hstart : Ascending succ start) :
    Ascending succ rows ∧ Within start rows := by
  induction h with
  | none => exact ⟨hstart, .refl start⟩
  | one i _ ih => exact ⟨ih.1.update i, ih.2.trans (ih.1.within_update i)⟩

end Updates

/-! ## Whatever is awaited is listed -/

theorem lt_size_of_mem_gen (h : k ∈ (row rows n).gen) : n < rows.size := by
  refine Nat.lt_of_not_le fun hle => ?_
  rw [row_eq_default hle] at h
  exact BitSet.not_mem_empty k h

theorem lt_size_of_mem_getD (h : j ∈ succ.getD n []) : n < succ.size := by
  refine Nat.lt_of_not_le fun hle => ?_
  rw [Array.getD_eq_getD_getElem?, Array.getElem?_eq_none hle] at h
  cases h

/-- If no row has anything to add, awaited nodes are listed. -/
theorem Closed.mem_before (h : Closed succ rows) (hsize : succ.size = rows.size)
    (hk : Awaited succ rows k n) : k ∈ (row rows n).before := by
  -- from the use backwards, each row lists what the next one on the path lists
  refine hk.backwards (P := fun n => k ∈ (row rows n).before) (fun n hused => ?_)
    (fun n j hj hnot hbefore => ?_)
  · apply (h n (lt_size_of_mem_gen hused)).before
    exact BitSet.mem_union.mpr (.inr hused)
  · apply (h n (hsize ▸ lt_size_of_mem_getD hj)).before
    refine BitSet.mem_union.mpr (.inl (BitSet.mem_diff.mpr ⟨?_, hnot⟩))
    exact mem_joined.mpr ⟨j, hj, hbefore⟩

theorem Closed.mem_after (h : Closed succ rows) (hsize : succ.size = rows.size)
    (hj : j ∈ succ.getD n []) (hk : Awaited succ rows k j) : k ∈ (row rows n).after := by
  apply (h n (hsize ▸ lt_size_of_mem_getD hj)).after
  exact mem_joined.mpr ⟨j, hj, h.mem_before hsize hk⟩

section
variable (hasc : Ascending succ start) (hstart : Justified succ start)
  (hsize : succ.size = start.size) (hup : Updates succ start rows) (hclosed : Closed succ rows)

include hasc hstart hsize hup hclosed in
/-- Rows that have come to rest list what is awaited, which does not depend on how they got
there. -/
theorem mem_before_iff : k ∈ (row rows n).before ↔ Awaited succ start k n := by
  have hwithin := (hup.ascending hasc).2
  rw [← hwithin.awaited_iff]
  exact ⟨(hup.justified hstart).before n k, hclosed.mem_before (hsize.trans hwithin.size.symm)⟩

include hasc hstart hsize hup hclosed in
theorem mem_after_iff :
    k ∈ (row rows n).after ↔ ∃ j ∈ succ.getD n [], Awaited succ start k j := by
  have hwithin := (hup.ascending hasc).2
  simp only [← hwithin.awaited_iff]
  constructor
  · exact (hup.justified hstart).after n k
  · rintro ⟨j, hj, hk⟩
    exact hclosed.mem_after (hsize.trans hwithin.size.symm) hj hk

end

/-! ## Passes -/

/-- The rows after so many passes. -/
def passed (succ : Array (List Nat)) : Nat → Array Row → Array Row
  | 0, rows => rows
  | m + 1, rows => passed succ m (pass succ rows)

/-- A pass over the rows changes none of their sets. -/
def Settled (succ : Array (List Nat)) (rows : Array Row) : Prop :=
  ∀ n k, (k ∈ (row (pass succ rows) n).before ↔ k ∈ (row rows n).before) ∧
    (k ∈ (row (pass succ rows) n).after ↔ k ∈ (row rows n).after)

theorem Within.missing_le (h : Within rows rows') (size : Nat) :
    missing size rows' ≤ missing size rows := by
  rw [missing_eq, missing_eq, h.size]
  exact foldr_add_le fun n _ => (h.rows n).missing_le size

theorem Ascending.settled_iff (h : Ascending succ rows) :
    Settled succ rows ↔ Within (Liveness.pass succ rows) rows := by
  have hup := h.pass.2
  constructor
  · intro hs
    refine ⟨hup.size.symm, fun n => ⟨(hup.rows n).gen.symm, (hup.rows n).kill.symm, ?_, ?_⟩⟩
    · exact fun k => (hs n k).1.mp
    · exact fun k => (hs n k).2.mp
  · intro hdown n k
    exact ⟨⟨(hdown.rows n).before k, (hup.rows n).before k⟩,
      ⟨(hdown.rows n).after k, (hup.rows n).after k⟩⟩

/-- The iteration makes one pass more than it takes to settle the rows. -/
theorem iterate_eq_passed (hasc : Ascending succ rows) (hb : Bounded size rows) (done : Nat) :
    ∃ m, iterate size succ rows done = (passed succ (m + 1) rows, done + (m + 1)) ∧
      Settled succ (passed succ m rows) ∧ ∀ l < m, ¬ Settled succ (passed succ l rows) := by
  induction rows, done using iterate.induct size succ with
  | case1 rows done next hlt ih =>
      rw [iterate, if_pos hlt]
      obtain ⟨m, heq, hsettled, hbusy⟩ := ih hasc.pass.1 hb.pass
      refine ⟨m + 1, ?_, hsettled, fun l hl => ?_⟩
      · rw [heq, Nat.add_assoc, Nat.add_comm 1]
        rfl
      · cases l with
        | zero =>
            -- settled rows have nothing to add, but this pass adds something
            intro hs
            have hle := (hasc.settled_iff.mp hs).missing_le size
            exact absurd hlt (Nat.not_lt.mpr hle)
        | succ l => exact hbusy l (by omega)
  | case2 rows done next hlt =>
      rw [iterate, if_neg hlt]
      refine ⟨0, rfl, hasc.settled_iff.mpr ?_, fun l hl => ?_⟩
      · exact hasc.pass.2.symm_of_missing_le hb.pass (Nat.le_of_not_lt hlt)
      · omega

/-! ## The tables of a function -/

/-- The rows before the first pass. -/
def startRows (c : Convention) (u : Nodes) (f : Func) : Array Row :=
  (f.code.map (initial c u)).toArray

/-- Nothing is listed before the first pass, so nothing wants a reason. -/
theorem justified_startRows (c : Convention) (u : Nodes) (f : Func) :
    Justified succ (startRows c u f) := by
  have hempty : ∀ n k, k ∉ (row (startRows c u f) n).before ∧
      k ∉ (row (startRows c u f) n).after := by
    intro n k
    unfold startRows
    cases hi : f.code[n]? with
    | none =>
        rw [row_initial_none hi]
        exact ⟨BitSet.not_mem_empty k, BitSet.not_mem_empty k⟩
    | some i =>
        rw [row_initial hi]
        exact ⟨BitSet.not_mem_empty k, BitSet.not_mem_empty k⟩
  exact ⟨fun n k hk => absurd hk (hempty n k).1, fun n k hk => absurd hk (hempty n k).2⟩

/-- A table of liveness that lists what is awaited and nothing else. -/
structure Exact (c : Convention) (f : Func) (live : Liveness) : Prop extends
    Solution c f live where
  /-- A node is listed before a place exactly if a path from there uses it before it defines it. -/
  path : ∀ n k, k ∈ (row live.rows n).before ↔ Awaited live.flow.succ.toArray live.rows k n
  /-- Sets that satisfy the equations, be it as inclusions only, contain those of the table. -/
  least : ∀ before after : Nat → Nat → Prop,
    (∀ n k, k ∈ (row live.rows n).gen → before n k) →
    (∀ n k, after n k → k ∉ (row live.rows n).kill → before n k) →
    (∀ n k, ∀ j ∈ live.flow.succ.toArray.getD n [], before j k → after n k) →
    ∀ n k, (k ∈ (row live.rows n).before → before n k) ∧ (k ∈ (row live.rows n).after → after n k)
  /-- Every order of recomputing rows that comes to rest ends with the same sets. -/
  order : ∀ rows, Updates live.flow.succ.toArray (startRows c live.nodes f) rows →
    Closed live.flow.succ.toArray rows → ∀ n k,
      (k ∈ (row rows n).before ↔ k ∈ (row live.rows n).before) ∧
      (k ∈ (row rows n).after ↔ k ∈ (row live.rows n).after)
  /-- The passes end with the first one that changes nothing. -/
  stops : ∃ m, live.passes = m + 1 ∧
    live.rows = passed live.flow.succ.toArray (m + 1) (startRows c live.nodes f) ∧
    Settled live.flow.succ.toArray (passed live.flow.succ.toArray m (startRows c live.nodes f)) ∧
    ∀ l < m, ¬ Settled live.flow.succ.toArray
      (passed live.flow.succ.toArray l (startRows c live.nodes f))

theorem exact_of_analyze {c : Convention} {f : Func} {live : Liveness}
    (h : analyze c f = .ok live) : Exact c f live := by
  have hsol := analyze_solution h
  obtain ⟨flow, _, h⟩ := bind_eq_ok.mp h
  obtain ⟨u, _, h⟩ := bind_eq_ok.mp h
  cases h
  have hasc : Ascending flow.succ.toArray (startRows c u f) := ascending_initial c u f.code
  have hb : Bounded u.size (startRows c u f) := bounded_initial c u f.code
  have hstart : Justified flow.succ.toArray (startRows c u f) := justified_startRows c u f
  have hsize : flow.succ.toArray.size = (startRows c u f).size := by
    simpa [startRows] using Flow.length_succ_of_resolve hsol.flow
  obtain ⟨_, hclosed, _, hwithin⟩ := iterate_closed hasc hb 0
  have hup : Updates flow.succ.toArray (startRows c u f)
      (iterate u.size flow.succ.toArray (startRows c u f) 0).1 := Updates.none.iterate u.size 0
  refine ⟨hsol, fun n k => ?_, ?_, fun rows hrows hrest n k => ⟨?_, ?_⟩, ?_⟩
  · exact (mem_before_iff hasc hstart hsize hup hclosed).trans hwithin.awaited_iff.symm
  · intro before after hused hkept hafter n k
    exact (hup.justified hstart).least hused hkept hafter n k
  · rw [mem_before_iff hasc hstart hsize hrows hrest]
    exact (mem_before_iff hasc hstart hsize hup hclosed).symm
  · rw [mem_after_iff hasc hstart hsize hrows hrest]
    exact (mem_after_iff hasc hstart hsize hup hclosed).symm
  · obtain ⟨m, heq, hsettled, hbusy⟩ := iterate_eq_passed hasc hb 0
    refine ⟨m, ?_, congrArg Prod.fst heq, hsettled, hbusy⟩
    exact (congrArg Prod.snd heq).trans (Nat.zero_add _)

/-- The analysis of a function without missing instructions whose jumps have targets ends, with
exact tables. -/
theorem analyze_exact (c : Convention) {f : Func} (hf : f.isComplete = true) (hres : f.Resolves) :
    ∃ live, analyze c f = .ok live ∧ Exact c f live := by
  obtain ⟨flow, hflow⟩ := Flow.resolve_eq_ok_iff.mpr hres
  have hok : ∃ live, analyze c f = .ok live := by
    unfold analyze
    rw [hflow, Nodes.ofFunc_of_isComplete c hf]
    exact ⟨_, rfl⟩
  obtain ⟨live, hlive⟩ := hok
  exact ⟨live, hlive, exact_of_analyze hlive⟩

/-- A value is handed round one loop; no path enters the other one. -/
def rotating : Func where
  name := ⟨"rotating"⟩
  args := 2
  locals := 0
  code := [
    .mov (.var ⟨"x"⟩) (.reg .rdi), .mov (.var ⟨"y"⟩) (.reg .rsi), .label ⟨"again"⟩,
    .mov (.reg .rax) (.var ⟨"x"⟩), .mov (.var ⟨"x"⟩) (.var ⟨"y"⟩), .mov (.var ⟨"y"⟩) (.num 1),
    .cjump .lt (.reg .rax) (.num 10) ⟨"again"⟩ ⟨"out"⟩, .label ⟨"out"⟩, .ret,
    .label ⟨"never"⟩, .arith .add (.reg .rax) (.var ⟨"z"⟩), .goto ⟨"never"⟩]

theorem analyze_exact_rotating : rotating.isComplete = true ∧ rotating.Resolves ∧
    ∃ live, analyze .systemV rotating = .ok live ∧ Exact .systemV rotating live ∧
      live.passes = 3 := by
  have hf : rotating.isComplete = true := by decide
  have hres : rotating.Resolves := by decide
  have hpasses : (analyze .systemV rotating).toOption.map Liveness.passes = some 3 := by
    decide +kernel
  obtain ⟨live, hlive, hexact⟩ := analyze_exact .systemV hf hres
  rw [hlive] at hpasses
  exact ⟨hf, hres, live, hlive, hexact, Option.some.inj hpasses⟩

end Spillway.Liveness
