import Spillway.BitSet.Lemmas
import Spillway.Liveness.Basic
import Spillway.Proofs.Liveness.Ids
import Spillway.Proofs.Liveness.Paths

/-!
# Liveness tables are a solution

The passes of the analysis only add facts, as every row they start from is below the row computed
from it (`Ascending`). When a pass leaves as many facts missing as before, it has added none, so
its rows solve the equations of liveness (`Liveness.Solution`, `analyze_solution`). A solution lists
everything that is live on some path (`Solution.mem_before`, `Solution.mem_after`).
-/

namespace Spillway

namespace BitSet

variable {s t : BitSet}

/-- A subset that is as large as the set is the whole set. -/
theorem subset_of_size_le (h : ∀ k ∈ s, k ∈ t) (hsize : t.size ≤ s.size) : ∀ k ∈ t, k ∈ s := by
  intro k hk
  refine Classical.byContradiction fun hks => ?_
  have hnodup : (k :: s.toList).Nodup :=
    List.nodup_cons.mpr ⟨fun hmem => hks (mem_toList.mp hmem), s.nodup_toList⟩
  have hsub : k :: s.toList ⊆ t.toList := by
    intro l hl
    rcases List.mem_cons.mp hl with rfl | hl
    · exact mem_toList.mpr hk
    · exact mem_toList.mpr (h l (mem_toList.mp hl))
  have hlen := hnodup.length_le_of_subset hsub
  rw [List.length_cons, length_toList, length_toList] at hlen
  omega

theorem size_le_of_subset (h : ∀ k ∈ s, k ∈ t) : s.size ≤ t.size := by
  rw [← length_toList, ← length_toList]
  exact s.nodup_toList.length_le_of_subset fun k hk => mem_toList.mpr (h k (mem_toList.mp hk))

/-- A set of numbers below `n` has at most `n` members. -/
theorem size_le_of_lt {n : Nat} (h : ∀ k ∈ s, k < n) : s.size ≤ n := by
  rw [← length_toList, ← @List.length_range n]
  exact s.nodup_toList.length_le_of_subset
    fun k hk => List.mem_range.mpr (h k (mem_toList.mp hk))

theorem mem_union {k : Nat} : k ∈ s.union t ↔ k ∈ s ∨ k ∈ t := by
  simp [mem_iff]

theorem mem_diff {k : Nat} : k ∈ s.diff t ↔ k ∈ s ∧ k ∉ t := by
  simp [mem_iff]

theorem not_mem_empty (k : Nat) : k ∉ empty := by
  simp [mem_iff]

end BitSet

/-! ## Rows -/

/-- A row with the same effect that lists at least as much. -/
structure Row.Le (r r' : Row) : Prop where
  gen : r'.gen = r.gen
  kill : r'.kill = r.kill
  before : ∀ k ∈ r.before, k ∈ r'.before
  after : ∀ k ∈ r.after, k ∈ r'.after

namespace Row.Le

variable {r r' r'' : Row}

theorem refl (r : Row) : Row.Le r r := ⟨rfl, rfl, fun _ h => h, fun _ h => h⟩

theorem trans (h : Row.Le r r') (h' : Row.Le r' r'') : Row.Le r r'' where
  gen := h'.gen.trans h.gen
  kill := h'.kill.trans h.kill
  before k hk := h'.before k (h.before k hk)
  after k hk := h'.after k (h.after k hk)

/-- Listing more leaves less missing. -/
theorem missing_le (h : Row.Le r r') (size : Nat) : r'.missing size ≤ r.missing size := by
  have hbefore := BitSet.size_le_of_subset h.before
  have hafter := BitSet.size_le_of_subset h.after
  unfold Row.missing
  omega

/-- If no less is missing, nothing more is listed. -/
theorem of_missing_le {size : Nat} (h : Row.Le r r') (hbefore : ∀ k ∈ r'.before, k < size)
    (hafter : ∀ k ∈ r'.after, k < size) (hmiss : r.missing size ≤ r'.missing size) :
    Row.Le r' r := by
  have hb := BitSet.size_le_of_subset h.before
  have ha := BitSet.size_le_of_subset h.after
  have hb' := BitSet.size_le_of_lt hbefore
  have ha' := BitSet.size_le_of_lt hafter
  unfold Row.missing at hmiss
  exact ⟨h.gen.symm, h.kill.symm, BitSet.subset_of_size_le h.before (by omega),
    BitSet.subset_of_size_le h.after (by omega)⟩

end Row.Le

namespace Liveness

variable {succ : Array (List Nat)} {rows rows' rows'' : Array Row} {n size : Nat}

/-- The row of a place; there is nothing live past the end. -/
def row (rows : Array Row) (n : Nat) : Row := rows.getD n default

theorem row_eq_default (h : rows.size ≤ n) : row rows n = default := by
  simp [row, Array.getD_eq_getD_getElem?, Array.getElem?_eq_none h]

theorem lt_size_of_mem_before {k : Nat} (h : k ∈ (row rows n).before) : n < rows.size := by
  refine Nat.lt_of_not_le fun hle => ?_
  rw [row_eq_default hle] at h
  exact BitSet.not_mem_empty k h

/-- The row of a place as the other rows now give it. -/
def recomputed (succ : Array (List Nat)) (rows : Array Row) (n : Nat) : Row :=
  let after := joined rows (succ.getD n [])
  { row rows n with after, before := (after.diff (row rows n).kill).union (row rows n).gen }

@[simp] theorem size_update (succ : Array (List Nat)) (rows : Array Row) (i : Nat) :
    (update succ rows i).size = rows.size := by
  simp [update]

theorem row_update (succ : Array (List Nat)) (rows : Array Row) (i n : Nat) :
    row (update succ rows i) n =
      if i = n ∧ n < rows.size then recomputed succ rows n else row rows n := by
  simp only [row, update, recomputed, Array.getD_eq_getD_getElem?, Array.getElem?_modify]
  by_cases hn : n < rows.size
  · by_cases hi : i = n
    · simp [hi, hn]
    · simp [hi]
  · simp [hn]

theorem mem_joined {places : List Nat} {k : Nat} :
    k ∈ joined rows places ↔ ∃ j ∈ places, k ∈ (row rows j).before := by
  have hfold : ∀ (ps : List Nat) (s : BitSet),
      k ∈ ps.foldl (fun s i => s.union (rows.getD i default).before) s ↔
        k ∈ s ∨ ∃ j ∈ ps, k ∈ (row rows j).before := by
    intro ps
    induction ps with
    | nil => simp
    | cons p ps ih =>
        intro s
        rw [List.foldl_cons, ih, BitSet.mem_union, or_assoc]
        simp [row]
  rw [joined, hfold]
  simp [BitSet.not_mem_empty]

/-! ## Tables in order -/

/-- Tables of the same function, row by row below one another. -/
structure Within (rows rows' : Array Row) : Prop where
  size : rows'.size = rows.size
  rows : ∀ n, Row.Le (row rows n) (row rows' n)

theorem Within.refl (rows : Array Row) : Within rows rows := ⟨rfl, fun _ => .refl _⟩

theorem Within.trans (h : Within rows rows') (h' : Within rows' rows'') : Within rows rows'' :=
  ⟨h'.size.trans h.size, fun n => (h.rows n).trans (h'.rows n)⟩

theorem recomputed_mono (h : Within rows rows') (n : Nat) :
    Row.Le (recomputed succ rows n) (recomputed succ rows' n) := by
  have hafter : ∀ k ∈ joined rows (succ.getD n []), k ∈ joined rows' (succ.getD n []) := by
    intro k hk
    obtain ⟨j, hj, hkj⟩ := mem_joined.mp hk
    exact mem_joined.mpr ⟨j, hj, (h.rows j).before k hkj⟩
  refine ⟨(h.rows n).gen, (h.rows n).kill, fun k hk => ?_, hafter⟩
  simp only [recomputed, BitSet.mem_union, BitSet.mem_diff] at hk ⊢
  rw [(h.rows n).gen, (h.rows n).kill]
  exact hk.imp (fun hk => ⟨hafter k hk.1, hk.2⟩) id

/-- Every row is below what the others now give for it. -/
def Ascending (succ : Array (List Nat)) (rows : Array Row) : Prop :=
  ∀ n < rows.size, Row.Le (row rows n) (recomputed succ rows n)

/-- Every row is above what the others now give for it. -/
def Closed (succ : Array (List Nat)) (rows : Array Row) : Prop :=
  ∀ n < rows.size, Row.Le (recomputed succ rows n) (row rows n)

theorem Ascending.within_update (h : Ascending succ rows) (i : Nat) :
    Within rows (update succ rows i) := by
  refine ⟨size_update succ rows i, fun n => ?_⟩
  rw [row_update]
  split
  · rename_i hn
    exact h n hn.2
  · exact .refl _

theorem Ascending.update (h : Ascending succ rows) (i : Nat) :
    Ascending succ (update succ rows i) := by
  intro n hn
  rw [size_update] at hn
  have hmono : Row.Le (recomputed succ rows n) (recomputed succ (Liveness.update succ rows i) n) :=
    recomputed_mono (h.within_update i) n
  rw [row_update]
  split
  · exact hmono
  · exact (h n hn).trans hmono

/-! ## Passes -/

/-- Recomputing rows one after the other keeps the tables ascending and only adds to them. -/
theorem Ascending.foldr (h : Ascending succ rows) (places : List Nat) :
    let next := places.foldr (fun i rows => Liveness.update succ rows i) rows
    Ascending succ next ∧ Within rows next := by
  induction places with
  | nil => exact ⟨h, .refl rows⟩
  | cons i places ih =>
      rw [List.foldr_cons]
      exact ⟨ih.1.update i, ih.2.trans (ih.1.within_update i)⟩

/-- If recomputing rows adds nothing, those rows were as the others gave them. -/
theorem Ascending.recomputed_le (h : Ascending succ rows) {places : List Nat}
    (hstop : Within (places.foldr (fun i rows => Liveness.update succ rows i) rows) rows) :
    ∀ n ∈ places, n < rows.size → Row.Le (recomputed succ rows n) (row rows n) := by
  induction places with
  | nil => intro n hn; cases hn
  | cons i places ih =>
      rw [List.foldr_cons] at hstop
      obtain ⟨hasc, hwithin⟩ := h.foldr places
      have hback := (hasc.within_update i).trans hstop
      intro n hn hsize
      rcases List.mem_cons.mp hn with rfl | hn
      · -- the row that is recomputed last sees what the others have added
        have hrow := hstop.rows n
        rw [row_update, hwithin.size, if_pos ⟨rfl, hsize⟩] at hrow
        exact (recomputed_mono hwithin n).trans hrow
      · exact ih hback n hn hsize

theorem Ascending.pass (h : Ascending succ rows) :
    Ascending succ (pass succ rows) ∧ Within rows (Liveness.pass succ rows) :=
  h.foldr (List.range rows.size)

theorem Ascending.closed_of_pass (h : Ascending succ rows)
    (hstop : Within (Liveness.pass succ rows) rows) : Closed succ rows := fun n hn =>
  h.recomputed_le hstop n (List.mem_range.mpr hn) hn

/-- A table between the rows of a closed one and those rows is closed. -/
theorem Closed.of_within (h : Closed succ rows) (hle : Within rows rows')
    (hge : Within rows' rows) : Closed succ rows' := by
  intro n hn
  rw [hle.size] at hn
  exact ((recomputed_mono hge n).trans (h n hn)).trans (hle.rows n)

/-! ## Bounds -/

/-- Only numbers below `size` are listed. -/
def Bounded (size : Nat) (rows : Array Row) : Prop :=
  ∀ n, (∀ k ∈ (row rows n).gen, k < size) ∧ (∀ k ∈ (row rows n).before, k < size) ∧
    ∀ k ∈ (row rows n).after, k < size

theorem Bounded.update (h : Bounded size rows) (i : Nat) : Bounded size (update succ rows i) := by
  intro n
  rw [row_update]
  split
  · have hafter : ∀ k ∈ joined rows (succ.getD n []), k < size := by
      intro k hk
      obtain ⟨j, _, hkj⟩ := mem_joined.mp hk
      exact (h j).2.1 k hkj
    refine ⟨(h n).1, fun k hk => ?_, hafter⟩
    simp only [recomputed, BitSet.mem_union, BitSet.mem_diff] at hk
    rcases hk with hk | hk
    · exact hafter k hk.1
    · exact (h n).1 k hk
  · exact h n

theorem Bounded.pass (h : Bounded size rows) : Bounded size (pass succ rows) := by
  unfold Liveness.pass
  generalize List.range rows.size = places
  induction places with
  | nil => exact h
  | cons i places ih => exact ih.update i

/-- The facts missing from a table, summed up place by place. -/
theorem missing_eq (size : Nat) (rows : Array Row) :
    missing size rows =
      (List.range rows.size).foldr (fun n k => (row rows n).missing size + k) 0 := by
  have hrows : rows.toList = (List.range rows.size).map (row rows) := by
    refine List.ext_getElem (by simp) fun n h₁ h₂ => ?_
    have hn : n < rows.size := by simpa using h₁
    simp [row, Array.getD_eq_getD_getElem?, hn]
  unfold missing
  rw [hrows, List.foldr_map]

theorem foldr_add_le {f g : Nat → Nat} {ns : List Nat} (hle : ∀ n ∈ ns, g n ≤ f n) :
    ns.foldr (fun n k => g n + k) 0 ≤ ns.foldr (fun n k => f n + k) 0 := by
  induction ns with
  | nil => exact Nat.le_refl 0
  | cons m ns ih =>
      rw [List.forall_mem_cons] at hle
      rw [List.foldr_cons, List.foldr_cons]
      exact Nat.add_le_add hle.1 (ih hle.2)

/-- Numbers none of which is larger than its counterpart, with the same sum, are the same. -/
theorem le_of_foldr_add_le {f g : Nat → Nat} {ns : List Nat} (hle : ∀ n ∈ ns, g n ≤ f n)
    (hsum : ns.foldr (fun n k => f n + k) 0 ≤ ns.foldr (fun n k => g n + k) 0) :
    ∀ n ∈ ns, f n ≤ g n := by
  induction ns with
  | nil => intro n hn; cases hn
  | cons m ns ih =>
      rw [List.forall_mem_cons] at hle
      rw [List.foldr_cons, List.foldr_cons] at hsum
      have hrest := foldr_add_le hle.2
      rw [List.forall_mem_cons]
      exact ⟨by omega, ih hle.2 (by omega)⟩

/-- If no fewer facts are missing from the larger table, it lists no more. -/
theorem Within.symm_of_missing_le (h : Within rows rows') (hb : Bounded size rows')
    (hmiss : missing size rows ≤ missing size rows') : Within rows' rows := by
  refine ⟨h.size.symm, fun n => ?_⟩
  by_cases hn : n < rows.size
  · refine (h.rows n).of_missing_le (hb n).2.1 (hb n).2.2 ?_
    rw [missing_eq, missing_eq, h.size] at hmiss
    exact le_of_foldr_add_le (fun n _ => (h.rows n).missing_le size) hmiss n
      (List.mem_range.mpr hn)
  · have hle : rows.size ≤ n := Nat.le_of_not_lt hn
    rw [row_eq_default hle, row_eq_default (h.size ▸ hle)]
    exact .refl _

/-- The iteration ends with a solution that has the effects it started from. -/
theorem iterate_closed (hasc : Ascending succ rows) (hb : Bounded size rows) (done : Nat) :
    let result := (iterate size succ rows done).1
    Ascending succ result ∧ Closed succ result ∧ Bounded size result ∧ Within rows result := by
  induction rows, done using iterate.induct size succ with
  | case1 rows done next hlt ih =>
      rw [iterate, if_pos hlt]
      obtain ⟨h, hc, hbound, hw⟩ := ih hasc.pass.1 hb.pass
      exact ⟨h, hc, hbound, hasc.pass.2.trans hw⟩
  | case2 rows done next hlt =>
      -- a pass that lists no more leaves the rows as they were, so they solve the equations
      rw [iterate, if_neg hlt]
      obtain ⟨h, hw⟩ := hasc.pass
      have hback := hw.symm_of_missing_le hb.pass (Nat.le_of_not_lt hlt)
      exact ⟨h, (hasc.closed_of_pass hback).of_within hw hback, hb.pass, hw⟩

/-! ## The solution -/

/-- A table that solves the equations of liveness for a function. -/
structure Solution (c : Convention) (f : Func) (live : Liveness) : Prop where
  complete : f.isComplete = true
  nodes : live.nodes = ⟨c.palette.eraseDups, f.vars⟩
  flow : Flow.resolve f = .ok live.flow
  size : live.rows.size = f.code.length
  bounded : Bounded live.nodes.size live.rows
  gen : ∀ {n i}, f.code[n]? = some i → (row live.rows n).gen = (Effect.of c live.nodes i).gen
  kill : ∀ {n i}, f.code[n]? = some i → (row live.rows n).kill = (Effect.of c live.nodes i).kill
  before : ∀ {n} k, n < f.code.length →
    (k ∈ (row live.rows n).before ↔
      k ∈ (row live.rows n).gen ∨ (k ∈ (row live.rows n).after ∧ k ∉ (row live.rows n).kill))
  after : ∀ {n} k, n < f.code.length →
    (k ∈ (row live.rows n).after ↔
      ∃ j ∈ live.flow.succ.toArray.getD n [], k ∈ (row live.rows j).before)

theorem row_initial {c : Convention} {u : Nodes} {code : List Instr} {i : Instr}
    (hi : code[n]? = some i) : row (code.map (initial c u)).toArray n = initial c u i := by
  simp [row, Array.getD_eq_getD_getElem?, hi]

theorem row_initial_none {c : Convention} {u : Nodes} {code : List Instr}
    (hi : code[n]? = none) : row (code.map (initial c u)).toArray n = default := by
  simp only [row, Array.getD_eq_getD_getElem?, List.getElem?_toArray, List.getElem?_map, hi]
  rfl

/-- Nothing is listed before the first pass. -/
theorem ascending_initial (c : Convention) (u : Nodes) (code : List Instr) :
    Ascending succ (code.map (initial c u)).toArray := by
  intro n hn
  obtain ⟨i, hi⟩ : ∃ i, code[n]? = some i :=
    ⟨_, List.getElem?_eq_getElem (by simpa using hn)⟩
  unfold recomputed
  rw [row_initial hi]
  exact ⟨rfl, rfl, fun k hk => absurd hk (BitSet.not_mem_empty k),
    fun k hk => absurd hk (BitSet.not_mem_empty k)⟩

theorem bounded_initial (c : Convention) (u : Nodes) (code : List Instr) :
    Bounded u.size (code.map (initial c u)).toArray := by
  intro n
  cases hi : code[n]? with
  | none =>
      rw [row_initial_none hi]
      have hempty : ∀ k : Nat, k ∉ (default : BitSet) := BitSet.not_mem_empty
      exact ⟨fun k hk => absurd hk (hempty k), fun k hk => absurd hk (hempty k),
        fun k hk => absurd hk (hempty k)⟩
  | some i =>
      rw [row_initial hi]
      refine ⟨fun k hk => ?_, fun k hk => absurd hk (BitSet.not_mem_empty k),
        fun k hk => absurd hk (BitSet.not_mem_empty k)⟩
      obtain ⟨x, _, hx⟩ := Nodes.mem_setOf.mp hk
      exact Nodes.id?_lt hx

/-- The analysis of a function solves its equations. -/
theorem analyze_solution {c : Convention} {f : Func} {live : Liveness}
    (h : analyze c f = .ok live) : Solution c f live := by
  obtain ⟨flow, hflow, h⟩ := bind_eq_ok.mp h
  obtain ⟨u, hu, h⟩ := bind_eq_ok.mp h
  obtain ⟨hcomplete, hnodes⟩ := Nodes.ofFunc_eq_ok hu
  cases h
  have hstart : Ascending flow.succ.toArray (f.code.map (initial c u)).toArray :=
    ascending_initial c u f.code
  obtain ⟨hasc, hclosed, hbound, hw⟩ := iterate_closed hstart (bounded_initial c u f.code) 0
  have hsize : (iterate u.size flow.succ.toArray (f.code.map (initial c u)).toArray 0).1.size =
      f.code.length := by
    rw [hw.size]
    simp
  refine ⟨hcomplete, hnodes, inContext_eq_ok.mp hflow, hsize, hbound, fun {n i} hi => ?_,
    fun {n i} hi => ?_, fun {n} k hn => ?_, fun {n} k hn => ?_⟩
  · rw [(hw.rows n).gen, row_initial hi]
    rfl
  · rw [(hw.rows n).kill, row_initial hi]
    rfl
  · rw [← hsize] at hn
    have hup : k ∈ _ → k ∈ _ := (hasc n hn).before k
    have hdown : k ∈ _ → k ∈ _ := (hclosed n hn).before k
    have hafter : k ∈ _ → k ∈ _ := (hclosed n hn).after k
    have hafter' : k ∈ _ → k ∈ _ := (hasc n hn).after k
    simp only [recomputed, BitSet.mem_union, BitSet.mem_diff] at hup hdown hafter hafter'
    constructor
    · intro hk
      exact (hup hk).symm.imp id fun h => ⟨hafter h.1, h.2⟩
    · intro hk
      exact hdown (hk.symm.imp (fun h => ⟨hafter' h.1, h.2⟩) id)
  · rw [← hsize] at hn
    rw [← mem_joined]
    exact ⟨(hasc n hn).after k, (hclosed n hn).after k⟩

/-- A function without missing instructions whose jumps have targets can be analyzed. -/
theorem analyze_isOk (c : Convention) {f : Func} (hf : f.isComplete = true) (hres : f.Resolves) :
    ∃ live, analyze c f = .ok live := by
  obtain ⟨flow, hflow⟩ := Flow.resolve_eq_ok_iff.mpr hres
  unfold analyze
  rw [hflow, Nodes.ofFunc_of_isComplete c hf]
  exact ⟨_, rfl⟩

namespace Solution

variable {c : Convention} {f : Func} {live : Liveness} {i : Instr} {x : Operand} {a j : Nat}

theorem mem_succ (h : Solution c f live) (hi : f.code[n]? = some i) :
    j ∈ live.flow.succ.toArray.getD n [] ↔ f.Next n i j ∧ j < f.code.length := by
  obtain ⟨js, hjs, hsucc⟩ := Flow.succ_of_resolve h.flow hi
  rw [← Flow.mem_successors hsucc]
  simp [hjs]

theorem mem_gen (h : Solution c f live) (hi : f.code[n]? = some i)
    (hx : live.nodes.id? x = some a) : a ∈ (row live.rows n).gen ↔ x ∈ i.uses c := by
  rw [h.gen hi]
  exact Nodes.mem_setOf_of_id? hx

theorem mem_kill (h : Solution c f live) (hi : f.code[n]? = some i)
    (hx : live.nodes.id? x = some a) : a ∈ (row live.rows n).kill ↔ x ∈ i.defs c := by
  rw [h.kill hi]
  exact Nodes.mem_setOf_of_id? hx

/-- Every node that is live on some path is listed. -/
theorem mem_before (h : Solution c f live) (hlive : Live c f n x)
    (hx : live.nodes.id? x = some a) : a ∈ (row live.rows n).before := by
  induction hlive with
  | used hi hu =>
      exact (h.before a (List.getElem?_eq_some_iff.mp hi).1).mpr (.inl ((h.mem_gen hi hx).mpr hu))
  | @kept n j i x hi hnext hj hdef ih =>
      have hn := (List.getElem?_eq_some_iff.mp hi).1
      refine (h.before a hn).mpr (.inr ⟨(h.after a hn).mpr ⟨j, ?_, ih hx⟩, ?_⟩)
      · exact (h.mem_succ hi).mpr ⟨hnext, hj.lt_length⟩
      · exact fun hk => hdef ((h.mem_kill hi hx).mp hk)

/-- Every node that is live on some path from a next place is listed. -/
theorem mem_after (h : Solution c f live) (hi : f.code[n]? = some i) (hnext : f.Next n i j)
    (hlive : Live c f j x) (hx : live.nodes.id? x = some a) : a ∈ (row live.rows n).after :=
  (h.after a (List.getElem?_eq_some_iff.mp hi).1).mpr
    ⟨j, (h.mem_succ hi).mpr ⟨hnext, hlive.lt_length⟩, h.mem_before hlive hx⟩

end Solution

end Liveness

end Spillway
