import Spillway.Frame.StackArg
import Spillway.Proofs.Allocator.Invariant
import Spillway.Proofs.Semantics.Spilling

/-!
# Allocation keeps the behaviour of a function

An allocated function works on the registers and slots in which its variables are placed
(`Placement`). Started with the values of the variables that are live at the entry in those places,
and with a frame that has moved up by as many slots as variables were spilled
(`Placement.Entry`), it ends if and only if the function does, and then with the same observation.
The same holds once its stack arguments are read as loads (`Func.allocate_observes_iff`).
-/

namespace Spillway

variable {c : Convention} {e : External} {w : World} {f g F : Func} {s t : State} {o : Observation}

/-! ## Stack arguments -/

/-- Reading stack arguments as loads changes no step. -/
theorem Func.step_lowerStackArgs (w : World) (f : Func) (s : State) :
    f.lowerStackArgs.step w s = f.step w s := by
  have hcode : f.lowerStackArgs.code[s.pc]? =
      (f.code[s.pc]?).map (Instr.lowerStackArg f.locals) := List.getElem?_map
  have hlabel : ∀ l, f.lowerStackArgs.labelIndex? l = f.labelIndex? l := by
    refine fun l => idxOf?_label_map (fun i l => ?_) f.code l
    cases i <;> simp [Instr.lowerStackArg]
  have hperform : ∀ a, s.perform w f.lowerStackArgs a = s.perform w f a := by
    intro a
    cases a with
    | jump l => simp only [State.perform, hlabel]
    | set | write | skip | leave | call | stop => rfl
  unfold Func.step
  rw [hcode]
  cases f.code[s.pc]? with
  | none => rfl
  | some i =>
      show s.perform w f.lowerStackArgs ((i.lowerStackArg f.locals).action w f.locals s) = _
      rw [hperform]
      cases i <;> rfl

theorem Func.run_lowerStackArgs (w : World) (f : Func) (n : Nat) (s : State) :
    f.lowerStackArgs.run w n s = f.run w n s := by
  induction n generalizing s with
  | zero => rfl
  | succ n ih =>
      unfold Func.run
      rw [step_lowerStackArgs]
      cases f.step w s with
      | running s' => exact ih s'
      | returned | ended | stuck => rfl

theorem Func.observes_lowerStackArgs :
    Observes c w f.lowerStackArgs s o ↔ Observes c w f s o := by
  unfold Observes
  simp only [run_lowerStackArgs]

/-! ## Spilling -/

theorem Func.FrameFits.mono {m n : Nat} (h : f.FrameFits n) (hmn : m ≤ n) : f.FrameFits m := by
  have hslot := h.slot
  refine ⟨by omega, fun i hi off hoff => ?_⟩
  have := h.offset i hi off hoff
  omega

/-- The state in which `v` has the value of the lowest slot, which is no part of the frame. -/
def State.unspill (v : Var) (t : State) : State :=
  { t with
    vars := fun x => if x = v then t.frame 0 else t.vars x
    frame := fun m => if 0 ≤ m then t.frame (m + 8) else t.frame m }

theorem inSlot_unspill (f : Func) (v : Var) (t : State) : InSlot f v (t.unspill v) t := by
  refine ⟨rfl, rfl, fun x _ hx => ?_, fun m hm => ?_, fun m hm => ?_, ?_⟩
  · simp [State.unspill, hx]
  · have hneg : ¬ (0 ≤ m) := by omega
    simp [State.unspill, hneg]
  · simp [State.unspill, hm]
  · simp [State.unspill]

namespace State

variable {vs : List Var} {u : State}

@[simp] theorem pc_unspills : (vs.foldr unspill u).pc = u.pc := by
  induction vs with
  | nil => rfl
  | cons v vs ih => exact ih

@[simp] theorem regs_unspills : (vs.foldr unspill u).regs = u.regs := by
  induction vs with
  | nil => rfl
  | cons v vs ih => exact ih

@[simp] theorem heap_unspills : (vs.foldr unspill u).heap = u.heap := by
  induction vs with
  | nil => rfl
  | cons v vs ih => exact ih

theorem frame_unspills_of_neg {m : Int} (hm : m < 0) :
    (vs.foldr unspill u).frame m = u.frame m := by
  induction vs with
  | nil => rfl
  | cons v vs ih =>
      show (if 0 ≤ m then _ else (vs.foldr unspill u).frame m) = _
      rw [if_neg (by omega), ih]

/-- The frame lies above as many slots as variables were spilled. -/
theorem frame_unspills {m : Int} (hm : 0 ≤ m) :
    (vs.foldr unspill u).frame m = u.frame (m + 8 * vs.length) := by
  induction vs generalizing m with
  | nil => simp
  | cons v vs ih =>
      show (if 0 ≤ m then (vs.foldr unspill u).frame (m + 8) else _) = _
      rw [if_pos hm, ih (by omega), List.length_cons]
      congr 1
      omega

/-- A spilled variable is in its slot; the first one that was spilled is in the highest. -/
theorem vars_unspills (x : Var) :
    (vs.foldr unspill u).vars x =
      match vs.idxOf? x with
      | some k => u.frame (8 * (vs.length - 1 - k : Nat))
      | none => u.vars x := by
  induction vs with
  | nil => rfl
  | cons v vs ih =>
      show (if x = v then (vs.foldr unspill u).frame 0 else (vs.foldr unspill u).vars x) = _
      rw [List.idxOf?_cons]
      by_cases hx : x = v
      · simp [hx, frame_unspills]
      · have hvx : (v == x) = false := by simpa using fun h : v = x => hx h.symm
        rw [if_neg hx, ih, hvx]
        cases hk : vs.idxOf? x with
        | none => rfl
        | some k =>
            have hlen : vs.length - 1 - k = (v :: vs).length - 1 - (k + 1) := by
              rw [List.length_cons]
              omega
            simp only [hlen]
            rfl

end State

/-- Spilling variables one after the other keeps what can be observed from the entry. -/
theorem Machine.observes_spillAll {vs : List Var} (h : spillAll f vs = .ok F)
    (hargs : f.StackArgsAbove) (hfit : f.FrameFits vs.length) (hpc : t.pc = 0) :
    Observes c w f (vs.foldr State.unspill t) o ↔ Observes c w F t o := by
  -- the first variable of the list is spilled first, and its slot is the last to be undone
  induction vs generalizing f with
  | nil =>
      cases h
      exact Iff.rfl
  | cons v vs ih =>
      obtain ⟨f', temps, hspill, hrest⟩ := spillAll_cons.mp h
      obtain ⟨_, _, _, ws, hlayout⟩ := Func.spill_eq_ok hspill
      rw [← ih hrest (hlayout.stackArgsAbove hargs hfit) (hlayout.frameFits hfit)]
      refine (Spill.simulates hlayout hargs (hfit.mono (by simp))).observes_iff ⟨?_, ?_⟩ o
      · show (vs.foldr State.unspill t).pc = Spill.position ws (vs.foldr State.unspill t).pc
        rw [State.pc_unspills, hpc, Spill.position_zero]
      · exact inSlot_unspill f v _

/-! ## Registers -/

/-- The state in which every variable has the value of its register. -/
def State.unassign (a : Assignment) (t : State) : State :=
  { t with vars := fun x => match a.lookup x with
      | some r => t.regs r
      | none => t.vars x }

theorem State.value_unassign (a : Assignment) (t : State) (x : Operand) :
    (t.unassign a).value w x = t.value w (x.assign a) := by
  cases x with
  | var v =>
      simp only [unassign, value, Operand.assign]
      cases a.lookup v <;> rfl
  | reg | num | label | runtime | hole => rfl

/-- Assigning a proper coloring keeps what can be observed. -/
theorem Machine.Examined.observes_assign {live : Liveness} {i : Interference} {a : Assignment}
    (h : Machine.Examined c F live i) (hc : c.Accepted) (hrsp : Reg.rsp ∉ c.palette)
    (hcolor : Coloring.color c i.graph = .ok (.colored a)) :
    Observes c (c.world e) F (t.unassign a) o ↔
      Observes c (c.world e) (F.rename (Operand.assign a)) t o := by
  have hρ := (h.proper hc hcolor).toRenaming h.solution h.build hrsp
  have hR : Renamed (c.world e) (Live c F) (Operand.assign a) (t.unassign a) t :=
    ⟨rfl, rfl, rfl, fun x _ => (State.value_unassign a t x).symm⟩
  exact hρ.observes_iff (Live.family c F) hR o

/-! ## Allocation -/

/-- Where allocation has put the variables of a function. -/
structure Placement where
  /-- The variables that were spilled, in this order. -/
  spilled : List Var
  /-- The registers of the others. -/
  registers : Assignment

/-- Where the allocation of a function puts its variables, if it succeeds. -/
def Func.placement? (c : Convention) (f : Func) : Option Placement :=
  match (Machine.initial f).run c with
  | .ok m => (m.coloring.bind Coloring.registers?).map (⟨m.spilled, ·⟩)
  | .error _ => none

namespace Placement

variable {p : Placement}

/-- The number of slots that spilling has added. -/
def slots (p : Placement) : Nat := p.spilled.length

/-- The value of a variable in the state of an allocated function. Of the spilled variables the last
one has the lowest slot. -/
def value (p : Placement) (t : State) (x : Var) : Int64 :=
  match p.spilled.idxOf? x with
  | some k => t.frame (8 * (p.slots - 1 - k : Nat))
  | none =>
    match p.registers.lookup x with
    | some r => t.regs r
    | none => t.vars x

/-- Entry states of a function and of the allocated function. They agree on the heap and on the
frame, which lies above the new slots in the second one, and what is live at the entry is where it
has been placed. -/
structure Entry (c : Convention) (f : Func) (p : Placement) (s t : State) : Prop where
  pc : s.pc = 0 ∧ t.pc = 0
  heap : t.heap = s.heap
  below : ∀ m : Int, m < 0 → t.frame m = s.frame m
  above : ∀ m : Int, 0 ≤ m → t.frame (m + 8 * p.slots) = s.frame m
  regs : ∀ r, Live c f 0 (.reg r) → t.regs r = s.regs r
  vars : ∀ x, Live c f 0 (.var x) → p.value t x = s.vars x

/-- The state of the function that the state of the allocated function stands for. -/
def source (p : Placement) (t : State) : State :=
  p.spilled.foldr State.unspill (t.unassign p.registers)

theorem vars_source (p : Placement) (t : State) (x : Var) :
    (p.source t).vars x = p.value t x := by
  unfold source value slots
  rw [State.vars_unspills]
  rfl

/-- From an entry state a function does what it does from the state that is stood for. -/
theorem Entry.observes_source (h : p.Entry c f s t) :
    Observes c (c.world e) f s o ↔ Observes c (c.world e) f (p.source t) o := by
  have hpc : (p.source t).pc = s.pc := by
    rw [h.pc.1, ← h.pc.2]
    exact State.pc_unspills
  refine observes_of_live_eq hpc (funext fun m => ?_) ?_ (fun x hx => ?_) o
  · by_cases hm : 0 ≤ m
    · exact (State.frame_unspills hm).trans (h.above m hm)
    · exact (State.frame_unspills_of_neg (by omega)).trans (h.below m (by omega))
  · exact State.heap_unspills.trans h.heap
  · rw [h.pc.1] at hx
    cases x with
    | reg r => exact (congrFun State.regs_unspills r).trans (h.regs r hx)
    | var v => exact (p.vars_source t v).trans (h.vars v hx)
    | num | label | runtime | hole => rfl

end Placement

namespace Machine

/-- The result of an allocation comes from a function that spilling has led to, by assigning a
coloring of its graph. -/
theorem allocate_eq_ok {r : Func} (h : f.allocate c = .ok r) :
    ∃ p F live i, f.placement? c = some p ∧ c.check = .ok () ∧ f.check = .ok () ∧
      spillAll f p.spilled = .ok F ∧ Examined c F live i ∧
      Coloring.color c i.graph = .ok (.colored p.registers) ∧
      r = F.rename (Operand.assign p.registers) := by
  obtain ⟨m₀, hstart, h⟩ := bind_eq_ok.mp h
  obtain ⟨hf, rfl⟩ := start_eq_ok.mp hstart
  split at h
  · rename_i m hrun
    cases h
    obtain ⟨hdone, n, rfl⟩ := run_eq_ok hrun
    have hinv := (invariant_initial c f).steps n
    obtain ⟨F, hF, hstage⟩ := hinv.stage
    obtain ⟨live, i, a, _, _, hex, hr, hcolor, hassign⟩ := hstage.of_done hdone
    obtain ⟨_, _, hm⟩ := Func.assign_eq_ok hassign
    obtain ⟨hc, hcheck⟩ := hinv.checked (hinv.iteration_ne_zero (by rw [hdone]; decide))
    refine ⟨⟨_, a⟩, F, live, i, ?_, hc, hcheck, hF, hex, hcolor, hm⟩
    unfold Func.placement?
    rw [hrun]
    simp only [hr]
    rfl
  · cases h

end Machine

/-- An allocated function behaves like the function. It has one more slot for each spilled variable,
and if stack arguments lie above the slots of the function and no frame offset leaves its 64 bits
when the new slots are added, then from corresponding entry states the function and the allocated
function come to the same end, if any, whatever code outside of them does. So does the allocated
function once its stack arguments are read as loads. -/
theorem Func.allocate_observes_iff {r : Func} (hsp : c.stackPointer = Reg.rsp)
    (hr : f.allocate c = .ok r) :
    ∃ p, f.placement? c = some p ∧ r.locals = f.locals + Int64.ofNat p.slots ∧
      (f.StackArgsAbove → f.FrameFits p.slots →
        ∀ (e : External) (s t : State), p.Entry c f s t → ∀ o,
          (Observes c (c.world e) f s o ↔ Observes c (c.world e) r t o) ∧
          (Observes c (c.world e) f s o ↔ Observes c (c.world e) r.lowerStackArgs t o)) := by
  obtain ⟨p, F, live, i, hp, hc, _, hF, hex, hcolor, rfl⟩ := Machine.allocate_eq_ok hr
  have hacc := Convention.check_eq_ok_iff.mp hc
  refine ⟨p, hp, (Machine.spilledTo_of_spillAll hF).locals, fun hargs hfit e s t hentry o => ?_⟩
  have hiff : Observes c (c.world e) f s o ↔
      Observes c (c.world e) (F.rename (Operand.assign p.registers)) t o :=
    calc Observes c (c.world e) f s o
      _ ↔ Observes c (c.world e) f (p.source t) o := hentry.observes_source
      _ ↔ Observes c (c.world e) F (t.unassign p.registers) o :=
          Machine.observes_spillAll hF hargs hfit hentry.pc.2
      _ ↔ Observes c (c.world e) (F.rename (Operand.assign p.registers)) t o :=
          hex.observes_assign hacc (hsp ▸ hacc.stackPointer) hcolor
  exact ⟨hiff, hiff.trans Func.observes_lowerStackArgs.symm⟩

/-- The state in which everything is zero. -/
def State.zero : State := ⟨0, fun _ => 0, fun _ => 0, fun _ => 0, fun _ => 0⟩

theorem Func.allocate_observes_iff_pressed :
    ∃ r p, pressed.allocate .tight = .ok r ∧ pressed.placement? .tight = some p ∧ p.slots = 3 ∧
      pressed.StackArgsAbove ∧ pressed.FrameFits 3 ∧
      p.Entry .tight pressed State.zero State.zero ∧
      ∀ e o, Observes .tight (Convention.tight.world e) pressed State.zero o ↔
        Observes .tight (Convention.tight.world e) r.lowerStackArgs State.zero o := by
  have hslots : (pressed.placement? .tight).map Placement.slots = some 3 := by decide +kernel
  have hok : ∃ r, pressed.allocate .tight = .ok r := by
    cases h : pressed.allocate .tight with
    | ok r => exact ⟨r, rfl⟩
    | error e =>
        have hisOk : (pressed.allocate .tight).isOk = true := by decide +kernel
        rw [h] at hisOk
        cases hisOk
  obtain ⟨r, hr⟩ := hok
  obtain ⟨p, hp, _, hiff⟩ := allocate_observes_iff rfl hr
  rw [hp] at hslots
  have hthree : p.slots = 3 := Option.some.inj hslots
  have hargs : pressed.StackArgsAbove := by
    intro dst off h
    simp only [pressed, List.mem_cons, Instr.stackArg.injEq, reduceCtorEq, List.not_mem_nil,
      or_false] at h
    rw [h.2]
    decide
  have hall : pressed.code.all (fun i => (i.frameOffsets pressed.locals).all fun m =>
      m.toInt + 8 * ((3 : Nat) : Int) ≤ Int64.maxValue.toInt) = true := by decide
  have hfit : pressed.FrameFits 3 := by
    refine ⟨by decide, fun i hi m hm => ?_⟩
    exact of_decide_eq_true (List.all_eq_true.mp (List.all_eq_true.mp hall i hi) m hm)
  have hentry : p.Entry .tight pressed State.zero State.zero := by
    refine ⟨⟨rfl, rfl⟩, rfl, fun _ _ => rfl, fun _ _ => rfl, fun _ _ => rfl, fun x _ => ?_⟩
    unfold Placement.value
    split
    · rfl
    · split <;> rfl
  refine ⟨r, p, hr, hp, hthree, hargs, hfit, hentry, fun e o => ?_⟩
  exact (hiff hargs (hthree ▸ hfit) e _ _ hentry o).2

end Spillway
