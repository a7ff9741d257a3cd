import Spillway.Proofs.Frame.Temporaries
import Spillway.Proofs.Liveness.Operands

/-!
# Liveness of a spilled function

Spilling a variable takes it out of every live set and adds nothing to one, as far as the boundaries
of windows are concerned (`Func.spill_liveness`). A temporary is live inside of its window only.

A window is straight-line code: control enters it at its first instruction and leaves it at its last
one, and from there it goes where the instruction of the window went (`Layout.next_inner`,
`Layout.next_last`). What is live before such code depends on what is live after it and on the code
alone (`LiveThrough`), and for a window this is what the instruction itself would give
(`Window.liveThrough_iff`). The paths of both functions are then the same, window by window.
-/

namespace Spillway

variable {c : Convention} {f g : Func} {v t : Var} {ws : List (List Instr)} {i j : Instr}
  {w : List Instr} {x : Operand} {n k m : Nat}

/-! ## Straight-line code -/

/-- Straight-line code, followed by places before which `after` is live, has `x` live before it. -/
def LiveThrough (c : Convention) (after : Operand → Prop) : List Instr → Operand → Prop
  | [], x => after x
  | i :: code, x => x ∈ i.uses c ∨ (LiveThrough c after code x ∧ x ∉ i.defs c)

theorem LiveThrough.mono {after after' : Operand → Prop} (h : ∀ y, after y → after' y)
    (hx : LiveThrough c after w x) : LiveThrough c after' w x := by
  induction w with
  | nil => exact h x hx
  | cons i w ih => exact hx.imp id fun hx => ⟨ih hx.1, hx.2⟩

theorem liveThrough_append (after : Operand → Prop) (w w' : List Instr) (x : Operand) :
    LiveThrough c after (w ++ w') x ↔ LiveThrough c (LiveThrough c after w') w x := by
  induction w with
  | nil => exact Iff.rfl
  | cons i w ih =>
      rw [List.cons_append, LiveThrough, LiveThrough, ih]

/-! ## What windows read and write -/

theorem Instr.uses_raiseSlots (i : Instr) : i.raiseSlots.uses c = i.uses c := by
  cases i <;> rfl

theorem Instr.defs_raiseSlots (i : Instr) : i.raiseSlots.defs c = i.defs c := by
  cases i <;> rfl

theorem Func.mem_vars_of_raiseSlots (hi : f.code[n]? = some i) (u : Var)
    (hu : .var u ∈ i.raiseSlots.slots) : u ∈ f.vars := by
  rw [Instr.slots_raiseSlots] at hu
  exact Func.mem_vars.mpr ⟨i, List.mem_of_getElem? hi, hu⟩

/-- The instructions that load the variable are those that use it. -/
theorem Instr.reads_iff_mem_uses : i.reads v = true ↔ .var v ∈ i.uses c := by
  cases i <;> simp [reads, uses, references_var, slots, @eq_comm _ (Operand.var v)]

/-- The instructions that store the variable are those that define it. -/
theorem Instr.writes_iff_mem_defs : i.writes v = true ↔ .var v ∈ i.defs c := by
  cases i <;> simp [writes, dest?, defs, @eq_comm _ (Operand.var v)]

/-- An instruction that works on the slot uses what it did, but for the variable. -/
theorem Folded.mem_uses_iff (h : Folded v i j) (hx : x ≠ .rsp) :
    x ∈ j.uses c ↔ x ∈ i.uses c ∧ x ≠ .var v := by
  cases h <;> simp only [Instr.uses, List.mem_cons, List.not_mem_nil, or_false] <;> grind

/-- An instruction that works on the slot defines what it did, but for the variable. -/
theorem Folded.mem_defs_iff (h : Folded v i j) : x ∈ j.defs c ↔ x ∈ i.defs c ∧ x ≠ .var v := by
  cases h <;> simp only [Instr.defs, List.mem_cons, List.not_mem_nil, or_false] <;> grind

theorem Operand.rename_reg (v t : Var) (r : Reg) : Operand.rename v t (.reg r) = .reg r := by
  unfold rename
  split
  · rename_i h
    cases h
  · rfl

namespace Spill

/-- What follows a window has only variables of the function live, and not the one that is
spilled. -/
def Free (v : Var) (used : List Var) (after : Operand → Prop) : Prop :=
  ∀ u, after (.var u) → u ∈ used ∧ u ≠ v

variable {used : List Var} {after : Operand → Prop}

theorem liveThrough_folded (h : Folded v i j) (hfree : Free v used after) (hx : x ≠ .rsp) :
    LiveThrough c after [j] x ↔
      x ≠ .var v ∧ (x ∈ i.uses c ∨ (after x ∧ x ∉ i.defs c)) := by
  have hafter : after x → x ≠ .var v := by
    rintro hx rfl
    exact (hfree v hx).2 rfl
  rw [LiveThrough, LiveThrough, h.mem_uses_iff hx, h.mem_defs_iff]
  grind

theorem liveThrough_load (b : Bool) (hx : x ≠ .rsp) :
    LiveThrough c after (if b then [.load (.var t) .rsp 0] else []) x ↔
      after x ∧ (b = true → x ≠ .var t) := by
  cases b with
  | false => simp [LiveThrough]
  | true => simp [LiveThrough, Instr.uses, Instr.defs, hx]

theorem liveThrough_store (b : Bool) (hx : x ≠ .rsp) :
    LiveThrough c after (if b then [.store .rsp 0 (.var t)] else []) x ↔
      after x ∨ (b = true ∧ x = .var t) := by
  cases b with
  | false => simp [LiveThrough]
  | true => simp [LiveThrough, Instr.uses, Instr.defs, hx, or_comm]

/-- Loading and storing a temporary keeps it live around the instruction in the middle only. -/
theorem liveThrough_throughTemp (ht : t ∉ used) (hslots : ∀ u, .var u ∈ i.slots → u ∈ used)
    (hv : .var v ∈ i.slots) (hfree : Free v used after) (hx : x ≠ .rsp) :
    LiveThrough c after (i.throughTemp v t) x ↔
      x ≠ .var v ∧ (x ∈ i.uses c ∨ (after x ∧ x ∉ i.defs c)) := by
  have htv : Operand.var t ≠ .var v := by
    intro he
    cases he
    exact ht (hslots v hv)
  have huse : Operand.var t ∉ i.uses c := fun h => ht (hslots t (Instr.mem_slots_of_uses h))
  have hafter : after x → x ≠ .var v ∧ x ≠ .var t := by
    intro hx
    refine ⟨?_, ?_⟩
    · rintro rfl
      exact (hfree v hx).2 rfl
    · rintro rfl
      exact ht (hfree t hx).1
  unfold Instr.throughTemp
  rw [liveThrough_append, liveThrough_append, liveThrough_load _ hx, LiveThrough, LiveThrough,
    liveThrough_store _ hx, Instr.uses_mapOperands (Operand.rename_reg v t),
    Instr.defs_mapOperands (Operand.rename_reg v t), Operand.mem_map_rename,
    Operand.mem_map_rename, Instr.reads_iff_mem_uses (c := c), Instr.writes_iff_mem_defs (c := c)]
  by_cases hxt : x = .var t
  · -- the temporary is defined before it is used
    subst hxt
    grind
  · grind

/-- Before a window is live what would be live before its instruction, but for the variable. -/
theorem Window.liveThrough_iff (h : Window v used i w) (hslots : ∀ u, .var u ∈ i.slots → u ∈ used)
    (hfree : Free v used after) (hx : x ≠ .rsp) :
    LiveThrough c after w x ↔ x ≠ .var v ∧ (x ∈ i.uses c ∨ (after x ∧ x ∉ i.defs c)) := by
  cases h with
  | plain hv =>
      refine ⟨fun hlive => ⟨?_, hlive⟩, fun hlive => hlive.2⟩
      rintro rfl
      rcases hlive with huse | hafter
      · exact hv (Instr.mem_slots_of_uses huse)
      · exact (hfree v hafter.1).2 rfl
  | slot hj => exact liveThrough_folded (Instr.folded_of_inSlot? hj) hfree hx
  | temp hv _ ht _ => exact liveThrough_throughTemp ht hslots hv hfree hx

/-! ## Ways through windows -/

theorem fallsThrough_of_writes (h : i.writes v = true) :
    i.fallsThrough = true ∧ i.targets = [] := by
  cases i <;> first | exact ⟨rfl, rfl⟩ | simp [Instr.writes, Instr.dest?] at h

theorem fallsThrough_rename :
    (i.mapOperands (Operand.rename v t)).fallsThrough = i.fallsThrough ∧
      (i.mapOperands (Operand.rename v t)).targets = i.targets := by
  cases i <;> exact ⟨rfl, rfl⟩

/-- Inside of a window control goes on with the next instruction. -/
theorem Window.inner (h : Window v used i w) (hj : w[k]? = some j) (hk : k + 1 < w.length) :
    j.fallsThrough = true ∧ j.targets = [] := by
  cases h with
  | plain _ => exact absurd hk (by simp)
  | slot _ => exact absurd hk (by simp)
  | @temp t _ _ _ _ =>
      rw [Instr.length_throughTemp] at hk
      by_cases hwork : k = if i.reads v then 1 else 0
      · have hwrites : i.writes v = true := by
          refine Classical.byContradiction fun hnot => ?_
          rw [if_neg hnot] at hk
          omega
        rw [hwork, Instr.throughTemp_work] at hj
        cases hj
        rw [fallsThrough_rename.1, fallsThrough_rename.2]
        exact fallsThrough_of_writes hwrites
      · have hreads : i.reads v = true := by
          refine Classical.byContradiction fun hnot => ?_
          rw [if_neg hnot] at hk hwork
          split at hk <;> omega
        have hzero : k = 0 := by
          rw [if_pos hreads] at hk hwork
          split at hk <;> omega
        rw [hzero, Instr.throughTemp_load t hreads] at hj
        cases hj
        exact ⟨rfl, rfl⟩

/-- From the last instruction of a window control goes where it went from its instruction. -/
theorem Window.last (h : Window v used i w) (hj : w[k]? = some j) (hk : k + 1 = w.length) :
    j.fallsThrough = i.fallsThrough ∧ j.targets = i.targets := by
  cases h with
  | plain _ =>
      obtain rfl : k = 0 := by simpa using hk
      cases hj
      exact ⟨rfl, rfl⟩
  | slot hslot =>
      obtain rfl : k = 0 := by simpa using hk
      cases hj
      cases Instr.folded_of_inSlot? hslot <;> exact ⟨rfl, rfl⟩
  | @temp t _ _ _ _ =>
      rw [Instr.length_throughTemp] at hk
      by_cases hwrites : i.writes v = true
      · -- an instruction with a destination does not jump
        obtain rfl : k = (if i.reads v then 1 else 0) + 1 := by
          rw [if_pos hwrites] at hk
          omega
        rw [Instr.throughTemp_store t hwrites] at hj
        cases hj
        obtain ⟨hfalls, htargets⟩ := fallsThrough_of_writes hwrites
        rw [hfalls, htargets]
        exact ⟨rfl, rfl⟩
      · obtain rfl : k = if i.reads v then 1 else 0 := by
          rw [if_neg hwrites] at hk
          omega
        rw [Instr.throughTemp_work] at hj
        cases hj
        exact fallsThrough_rename

theorem fallsThrough_raiseSlots (i : Instr) :
    i.raiseSlots.fallsThrough = i.fallsThrough ∧ i.raiseSlots.targets = i.targets := by
  cases i <;> exact ⟨rfl, rfl⟩

namespace Layout

variable (h : Layout f v ws g) (hi : f.code[n]? = some i) (hw : ws[n]? = some w)
  (hj : w[k]? = some j)

include h hi hw in
theorem window_of_getElem? : Window v f.vars i.raiseSlots w := by
  obtain ⟨w', hw', hwindow⟩ := h.window hi
  cases hw.symm.trans hw'
  exact hwindow

include h hi hw hj in
theorem next_inner (hk : k + 1 < w.length) :
    g.Next (position ws n + k) j m ↔ m = position ws n + (k + 1) := by
  obtain ⟨hfalls, htargets⟩ := (h.window_of_getElem? hi hw).inner hj hk
  simp [Func.Next, hfalls, htargets, Nat.add_assoc]

include h hi hw hj in
/-- Control leaves a window for the windows of the places that come next. -/
theorem next_last (hk : k + 1 = w.length) :
    g.Next (position ws n + k) j m ↔ ∃ n', f.Next n i n' ∧ m = position ws n' := by
  obtain ⟨hfalls, htargets⟩ := (h.window_of_getElem? hi hw).last hj hk
  rw [(fallsThrough_raiseSlots i).1] at hfalls
  rw [(fallsThrough_raiseSlots i).2] at htargets
  have hend : position ws n + k + 1 = position ws (n + 1) := by
    rw [position_succ hw]
    omega
  simp only [Func.Next, hfalls, htargets, hend, h.labelIndex?, Option.map_eq_some_iff]
  constructor
  · rintro (⟨hfall, rfl⟩ | ⟨l, hl, n', hn', rfl⟩)
    · exact ⟨n + 1, .inl ⟨hfall, rfl⟩, rfl⟩
    · exact ⟨n', .inr ⟨l, hl, hn'⟩, rfl⟩
  · rintro ⟨n', ⟨hfall, rfl⟩ | ⟨l, hl, hn'⟩, rfl⟩
    · exact .inl ⟨hfall, rfl⟩
    · exact .inr ⟨l, hl, n', hn', rfl⟩

/-! ## Paths through windows -/

/-- What is live after the instruction of a place, but for the variable. -/
def Kept (c : Convention) (f : Func) (v : Var) (n : Nat) (x : Operand) : Prop :=
  LiveAfter c f n x ∧ x ≠ .var v

theorem free_kept (c : Convention) (f : Func) (v : Var) (n : Nat) :
    Free v f.vars (Kept c f v n) := by
  intro u hu
  refine ⟨hu.1.mem_vars, ?_⟩
  rintro rfl
  exact hu.2 rfl

include h hi hw in
/-- A window adds nothing to what is live before its instruction, and takes the variable away. -/
theorem liveThrough_kept (hx : x ≠ .rsp) :
    LiveThrough c (Kept c f v n) w x ↔ Live c f n x ∧ x ≠ .var v := by
  have hwindow := h.window_of_getElem? hi hw
  rw [hwindow.liveThrough_iff (Func.mem_vars_of_raiseSlots hi) (free_kept c f v n) hx, live_iff,
    Instr.uses_raiseSlots, Instr.defs_raiseSlots]
  unfold Kept
  simp only [hi, Option.some.injEq, exists_eq_left']
  grind

theorem exists_window (h : Layout f v ws g) (hn : position ws n < g.code.length) :
    ∃ i w, f.code[n]? = some i ∧ ws[n]? = some w := by
  cases hi : f.code[n]? with
  | some i =>
      obtain ⟨w, hw, _⟩ := h.window hi
      exact ⟨i, w, rfl, hw⟩
  | none =>
      have hend := getElem?_position_none (h.window_none hi)
      rw [← h.code, List.getElem?_eq_none_iff] at hend
      omega

/-- What is live inside of a window is live before the rest of it. -/
theorem liveThrough_of_live (h : Layout f v ws g) (hx : x ≠ .rsp) (hlive : Live c g m x) :
    ∀ {n k i w}, f.code[n]? = some i → ws[n]? = some w → k < w.length →
      m = position ws n + k → LiveThrough c (Kept c f v n) (w.drop k) x := by
  -- the path of the new function enters windows at their first instructions only
  induction hlive with
  | @used m j x hm hu =>
      intro n k i w hi hw hk hpos
      have hj := h.getElem? hw (List.getElem?_eq_getElem hk)
      rw [hpos, hj] at hm
      cases hm
      rw [List.drop_eq_getElem_cons hk]
      exact .inl hu
  | @kept m m' j x hm hnext hlive hdef ih =>
      intro n k i w hi hw hk hpos
      have hget := List.getElem?_eq_getElem hk
      have hj := h.getElem? hw hget
      rw [hpos, hj] at hm
      cases hm
      rw [hpos] at hnext
      rw [List.drop_eq_getElem_cons hk]
      refine .inr ⟨?_, hdef⟩
      by_cases hlast : k + 1 < w.length
      · exact ih hx hi hw hlast ((h.next_inner hi hw hget hlast).mp hnext)
      · obtain ⟨n', hnext', rfl⟩ := (h.next_last hi hw hget (by omega)).mp hnext
        obtain ⟨i', w', hi', hw'⟩ := h.exists_window hlive.lt_length
        have hthrough := ih hx hi' hw' (h.window_length_pos hw') rfl
        obtain ⟨hlive', hne⟩ := (h.liveThrough_kept hi' hw' hx).mp hthrough
        rw [List.drop_eq_nil_of_le (by omega)]
        exact ⟨⟨i, n', hi, hnext', hlive'⟩, hne⟩

/-- What is live before the rest of a window is live there. -/
theorem live_of_liveThrough (h : Layout f v ws g) (hi : f.code[n]? = some i)
    (hw : ws[n]? = some w) (hk : k < w.length)
    (hlive : LiveThrough c (LiveAfter c g (position ws (n + 1) - 1)) (w.drop k) x) :
    Live c g (position ws n + k) x := by
  obtain ⟨d, hd⟩ : ∃ d, w.length = k + 1 + d := ⟨w.length - (k + 1), by omega⟩
  induction d generalizing k with
  | zero =>
      have hj := h.getElem? hw (List.getElem?_eq_getElem hk)
      have hend : position ws (n + 1) - 1 = position ws n + k := by
        rw [position_succ hw]
        omega
      rw [List.drop_eq_getElem_cons hk, List.drop_eq_nil_of_le (by omega), hend] at hlive
      exact live_iff.mpr ⟨_, hj, hlive⟩
  | succ d ih =>
      have hget := List.getElem?_eq_getElem hk
      have hj := h.getElem? hw hget
      rw [List.drop_eq_getElem_cons hk] at hlive
      rcases hlive with hu | ⟨hrest, hdef⟩
      · exact .used hj hu
      · have hlast : k + 1 < w.length := by omega
        exact .kept hj ((h.next_inner hi hw hget hlast).mpr rfl) (ih hlast hrest (by omega)) hdef

/-- Control leaves the last instruction of a window for other windows. -/
theorem liveAfter_last (h : Layout f v ws g) (hi : f.code[n]? = some i) :
    LiveAfter c g (position ws (n + 1) - 1) x ↔
      ∃ n', f.Next n i n' ∧ Live c g (position ws n') x := by
  obtain ⟨w, hw, _⟩ := h.window hi
  have hlen := h.window_length_pos hw
  have hget := List.getElem?_eq_getElem (show w.length - 1 < w.length by omega)
  have hend : position ws (n + 1) - 1 = position ws n + (w.length - 1) := by
    rw [position_succ hw]
    omega
  have hj := h.getElem? hw hget
  have hnext : ∀ m, g.Next (position ws n + (w.length - 1)) _ m ↔ _ :=
    fun m => h.next_last hi hw hget (by omega)
  rw [hend]
  constructor
  · rintro ⟨j, m, hm, hnext', hlive⟩
    cases hj.symm.trans hm
    obtain ⟨n', hn', rfl⟩ := (hnext m).mp hnext'
    exact ⟨n', hn', hlive⟩
  · rintro ⟨n', hn', hlive⟩
    exact ⟨_, _, hj, (hnext _).mpr ⟨n', hn', rfl⟩, hlive⟩

/-- What an instruction uses or leaves alone is live before its window. -/
theorem live_of_instr (h : Layout f v ws g) (hi : f.code[n]? = some i) (hx : x ≠ .rsp)
    (hne : x ≠ .var v) (hvars : ∀ u, x = .var u → u ∈ f.vars)
    (hlive : x ∈ i.uses c ∨ (LiveAfter c g (position ws (n + 1) - 1) x ∧ x ∉ i.defs c)) :
    Live c g (position ws n) x := by
  obtain ⟨w, hw, hwindow⟩ := h.window hi
  -- of what follows the window, only `x` matters, and `x` is no temporary
  have hfree : Free v f.vars fun y => y = x ∧ LiveAfter c g (position ws (n + 1) - 1) y := by
    rintro u ⟨rfl, _⟩
    exact ⟨hvars u rfl, fun he => hne (he ▸ rfl)⟩
  rw [← Instr.uses_raiseSlots, ← Instr.defs_raiseSlots] at hlive
  have hthrough := (hwindow.liveThrough_iff (Func.mem_vars_of_raiseSlots hi) hfree hx).mpr
    ⟨hne, hlive.imp id fun hafter => ⟨⟨rfl, hafter.1⟩, hafter.2⟩⟩
  exact h.live_of_liveThrough hi hw (h.window_length_pos hw) (hthrough.mono fun _ hy => hy.2)

/-- Before a window is live what is live before its instruction, but for the variable. -/
theorem live_position_iff (h : Layout f v ws g) (hx : x ≠ .rsp) :
    Live c g (position ws n) x ↔ Live c f n x ∧ x ≠ .var v := by
  constructor
  · intro hlive
    obtain ⟨i, w, hi, hw⟩ := h.exists_window hlive.lt_length
    exact (h.liveThrough_kept hi hw hx).mp
      (h.liveThrough_of_live hx hlive hi hw (h.window_length_pos hw) rfl)
  · rintro ⟨hlive, hne⟩
    induction hlive with
    | used hi hu =>
        refine h.live_of_instr hi hx hne ?_ (.inl hu)
        rintro u rfl
        exact (Live.used hi hu).mem_vars
    | kept hi hnext hlive hdef ih =>
        refine h.live_of_instr hi hx hne ?_ (.inr ⟨?_, hdef⟩)
        · rintro u rfl
          exact hlive.mem_vars
        · exact (h.liveAfter_last hi).mpr ⟨_, hnext, ih hx hne⟩

/-- After a window is live what is live after its instruction, but for the variable. -/
theorem liveAfter_position_iff (h : Layout f v ws g) (hn : n < f.code.length) (hx : x ≠ .rsp) :
    LiveAfter c g (position ws (n + 1) - 1) x ↔ LiveAfter c f n x ∧ x ≠ .var v := by
  have hi := List.getElem?_eq_getElem hn
  rw [h.liveAfter_last hi]
  simp only [h.live_position_iff hx]
  constructor
  · rintro ⟨n', hnext, hlive, hne⟩
    exact ⟨⟨_, n', hi, hnext, hlive⟩, hne⟩
  · rintro ⟨⟨i, n', hi', hnext, hlive⟩, hne⟩
    cases hi.symm.trans hi'
    exact ⟨n', hnext, hlive, hne⟩

/-- Labels move with their windows. -/
theorem labels_eq (h : Layout f v ws g) :
    g.labels = f.labels.map fun place => (place.1, position ws place.2) := by
  simp only [Func.labels, h.labels, h.labelIndex?, List.map_filterMap, Option.map_map]
  rfl

end Layout

end Spill

theorem Flow.labels_of_resolve {flow : Flow} (h : resolve f = .ok flow) :
    flow.labels = f.labels := by
  obtain ⟨succ, _, h⟩ := bind_eq_ok.mp h
  cases h
  rfl

/-- Spilling takes the variable out of every live set and adds nothing where windows begin and end.
Labels are found at the windows of the places where they were, before the first instruction of a
window is live what was live before its instruction, but for the variable, and after the last one
what was live after it. So no temporary is live there. -/
theorem Func.spill_liveness (c : Convention) (hf : f.isComplete = true) (hres : f.Resolves)
    (v : Var) (stem : String) :
    ∃ g temps ws live live', f.spill v stem = .ok (g, temps) ∧
      Spill.windows v stem f.vars 0 f.code = (ws, temps) ∧ Spill.Layout f v ws g ∧
      Liveness.analyze c f = .ok live ∧ Liveness.analyze c g = .ok live' ∧
      live'.flow.labels =
        live.flow.labels.map (fun place => (place.1, Spill.position ws place.2)) ∧
      (∀ n x, x ∈ live'.liveBefore (Spill.position ws n) ↔
        x ∈ live.liveBefore n ∧ x ≠ .var v) ∧
      (∀ n < f.code.length, ∀ x, x ∈ live'.liveAfter (Spill.position ws (n + 1) - 1) ↔
        x ∈ live.liveAfter n ∧ x ≠ .var v) ∧
      ∀ t ∈ temps, ∀ n < f.code.length, .var t ∉ live'.liveBefore (Spill.position ws n) ∧
        .var t ∉ live'.liveAfter (Spill.position ws (n + 1) - 1) := by
  obtain ⟨g, temps, ws, hspill, hwindows, hlayout⟩ := spill_windows hf v stem
  obtain ⟨live, hanalyze⟩ := Liveness.analyze_isOk c hf hres
  obtain ⟨live', hanalyze'⟩ :=
    Liveness.analyze_isOk c (hlayout.isComplete hf) (hlayout.resolves hres)
  have hexact := Liveness.exact_of_analyze hanalyze
  have hexact' := Liveness.exact_of_analyze hanalyze'
  have hbefore : ∀ n x, x ∈ live'.liveBefore (Spill.position ws n) ↔
      x ∈ live.liveBefore n ∧ x ≠ .var v := by
    intro n x
    rw [hexact'.mem_liveBefore, hexact.mem_liveBefore, and_assoc]
    exact and_congr_right fun htracks => hlayout.live_position_iff htracks.ne_rsp
  have hafter : ∀ n < f.code.length, ∀ x,
      x ∈ live'.liveAfter (Spill.position ws (n + 1) - 1) ↔ x ∈ live.liveAfter n ∧ x ≠ .var v := by
    intro n hn x
    rw [hexact'.mem_liveAfter, hexact.mem_liveAfter, and_assoc]
    exact and_congr_right fun htracks => hlayout.liveAfter_position_iff hn htracks.ne_rsp
  refine ⟨g, temps, ws, live, live', hspill, hwindows, hlayout, hanalyze, hanalyze', ?_, hbefore,
    hafter, ?_⟩
  · rw [Flow.labels_of_resolve hexact'.flow, Flow.labels_of_resolve hexact.flow]
    exact hlayout.labels_eq
  · intro t ht n hn
    -- what is listed for the function are its variables, and temporaries are new
    have hrewrites := Spill.rewrites_windows v stem f.vars f.code 0
    rw [hwindows] at hrewrites
    have hnew := hrewrites.not_mem_used ht
    refine ⟨fun hlive => hnew ?_, fun hlive => hnew ?_⟩
    · exact (hexact.mem_liveBefore.mp ((hbefore n _).mp hlive).1).2.mem_vars
    · exact (hexact.mem_liveAfter.mp ((hafter n hn _).mp hlive).1).2.mem_vars

/-- A variable that is live all around a loop, in which it is squared. -/
def Func.squaring : Func where
  name := ⟨"squaring"⟩
  args := 0
  locals := 0
  code := [
    .mov (.var ⟨"n"⟩) (.num 3), .label ⟨"again"⟩, .arith .mul (.var ⟨"n"⟩) (.var ⟨"n"⟩),
    .cjump .lt (.var ⟨"n"⟩) (.num 64) ⟨"again"⟩ ⟨"out"⟩, .label ⟨"out"⟩,
    .mov (.reg .rax) (.var ⟨"n"⟩), .ret]

/-- The window of the jump, which is at place 3, starts at place 5. -/
theorem Func.spill_liveness_squaring : squaring.isComplete = true ∧ squaring.Resolves ∧
    ∃ g live live', squaring.spill ⟨"n"⟩ "n" = .ok (g, [⟨"n0"⟩, ⟨"n1"⟩]) ∧
      Liveness.analyze .systemV squaring = .ok live ∧ Liveness.analyze .systemV g = .ok live' ∧
      .var ⟨"n"⟩ ∈ live.liveBefore 3 ∧
      ∀ x, x ∈ live'.liveBefore 5 ↔ x ∈ live.liveBefore 3 ∧ x ≠ .var ⟨"n"⟩ := by
  have hf : squaring.isComplete = true := by decide
  have hres : squaring.Resolves := by decide
  obtain ⟨g, temps, ws, live, live', hspill, hwindows, _, hlive, hlive', _, hbefore, _⟩ :=
    spill_liveness .systemV hf hres ⟨"n"⟩ "n"
  have hplaces : (Spill.windows ⟨"n"⟩ "n" squaring.vars 0 squaring.code).2 =
        [⟨"n0"⟩, ⟨"n1"⟩] ∧
      Spill.position (Spill.windows ⟨"n"⟩ "n" squaring.vars 0 squaring.code).1 3 = 5 := by
    decide +kernel
  rw [hwindows] at hplaces
  obtain ⟨rfl, hpos⟩ := hplaces
  have hn : Live .systemV squaring 3 (.var ⟨"n"⟩) := .used rfl List.mem_cons_self
  refine ⟨hf, hres, g, live, live', hspill, hlive, hlive', ?_, hpos ▸ hbefore 3⟩
  exact (Liveness.exact_of_analyze hlive).mem_liveBefore.mpr ⟨trivial, hn⟩

end Spillway
