import Spillway.Proofs.Allocator.Behaviour

/-!
# Runs of a spilled function

Spilling one variable keeps all that a function does to the registers and the heap. A step of the
function and the steps of its window lead to related states again, or to the same end, and so do
runs (`Func.spill_agrees`). The ends are compared with all their registers, whether or not the
convention looks at them, and also when the function runs off its last instruction (`Ending`).
-/

namespace Spillway

variable {w : World} {f g : Func} {R : State → State → Prop} {s t : State}

/-! ## Ends -/

/-- The end of an execution, with all registers and the heap. -/
inductive Ending where
  | returned (regs : Reg → Int64) (heap : Int64 → Int64)
  | ended (regs : Reg → Int64) (heap : Int64 → Int64)

def Outcome.ending? : Outcome → Option Ending
  | running _ => none
  | returned s => some (.returned s.regs s.heap)
  | ended s => some (.ended s.regs s.heap)
  | stuck => none

theorem Outcome.Agrees.ending?_eq {o o' : Outcome} (h : Outcome.Agrees R o o') :
    o'.ending? = o.ending? := by
  cases h with
  | running _ => rfl
  | returned hregs hheap =>
      show some (Ending.returned _ _) = some (Ending.returned _ _)
      rw [hregs, hheap]
  | ended hregs hheap =>
      show some (Ending.ended _ _) = some (Ending.ended _ _)
      rw [hregs, hheap]
  | stuck => rfl

namespace Func

/-- The function, started in a state, comes to the end `e`. -/
def EndsWith (w : World) (f : Func) (s : State) (e : Ending) : Prop :=
  ∃ n, (f.run w n s).ending? = some e

/-- Functions whose runs agree come to the same ends. If the second is over after `n` steps then it
is where the first is after `n` steps, since it takes at least as many. -/
theorem endsWith_iff (hrun : ∀ n, ∃ m, n ≤ m ∧ Outcome.Agrees R (f.run w n s) (g.run w m t))
    (e : Ending) : f.EndsWith w s e ↔ g.EndsWith w t e := by
  constructor
  · rintro ⟨n, hn⟩
    obtain ⟨m, _, hagrees⟩ := hrun n
    exact ⟨m, hagrees.ending?_eq.trans hn⟩
  · rintro ⟨n, hn⟩
    obtain ⟨m, hnm, hagrees⟩ := hrun n
    have hend : g.run w (n + (m - n)) t = g.run w n t := by
      refine run_add_of_end (fun t' ht' => ?_) (m - n)
      rw [ht'] at hn
      cases hn
    rw [Nat.add_sub_cancel' hnm] at hend
    rw [hend] at hagrees
    exact ⟨n, hagrees.ending?_eq.symm.trans hn⟩

/-! ## Spilling -/

/-- Spilling keeps the meaning of a function. Take any state of the function and a state at the
start of its window that has the variable in the lowest slot, the rest of the frame above it, and
everything else alike. Then one step of the function does what the steps of the window do: both go
on in such states, or both return or run off the end with the same registers and heap, or both lack
the target of a jump. Runs agree in the same way, and the two functions come to the same ends. No
frame offset of the function may be so large that it overflows when it moves up, and stack arguments
have to lie above the slots. -/
theorem spill_agrees (hf : f.check = .ok ()) (hargs : f.StackArgsAbove) (hfit : f.FrameFits 1)
    (v : Var) (stem : String) :
    ∃ r temps ws, f.spill v stem = .ok (r, temps) ∧
      Spill.windows v stem f.vars 0 f.code = (ws, temps) ∧ Spill.Layout f v ws r ∧
      ∀ (w : World) (s t : State), Spill.Related ws f v s t →
        Outcome.Agrees (Spill.Related ws f v) (f.step w s) (r.run w (Spill.steps ws s.pc) t) ∧
        (∀ n, ∃ m, n ≤ m ∧
          Outcome.Agrees (Spill.Related ws f v) (f.run w n s) (r.run w m t)) ∧
        ∀ e, f.EndsWith w s e ↔ r.EndsWith w t e := by
  obtain ⟨r, temps, ws, hspill, hwindows, hlayout⟩ :=
    spill_windows (isComplete_of_check hf) v stem
  refine ⟨r, temps, ws, hspill, hwindows, hlayout, fun w s t hrel => ?_⟩
  have hrun : ∀ n, ∃ m, n ≤ m ∧
      Outcome.Agrees (Spill.Related ws f v) (f.run w n s) (r.run w m t) :=
    run_lifts Outcome.lifts_agrees (fun s t => Spill.exists_agrees hlayout hargs hfit) hrel
  exact ⟨Spill.agrees_steps hlayout hargs hfit hrel, hrun, endsWith_iff hrun⟩

/-- A function whose variable `n` is written, read, and both at once, with an argument on the stack,
an access below the stack pointer, a call and a loop. -/
def tripling : Func where
  name := ⟨"tripling"⟩
  args := 7
  locals := 1
  code := [
    .stackArg (.var ⟨"n"⟩) 0, .store .rsp (-8) (.var ⟨"n"⟩), .label ⟨"again"⟩,
    .lea (.var ⟨"n"⟩) (.var ⟨"n"⟩) (.var ⟨"n"⟩) 2, .arith .add (.reg .rdi) (.var ⟨"n"⟩),
    .store .rsp 0 (.reg .rdi), .call (.runtime "print") 1,
    .cjump .lt (.var ⟨"n"⟩) (.num 64) ⟨"again"⟩ ⟨"out"⟩, .label ⟨"out"⟩,
    .mov (.reg .rax) (.var ⟨"n"⟩), .ret]

theorem spill_agrees_tripling :
    tripling.check = .ok () ∧ tripling.StackArgsAbove ∧ tripling.FrameFits 1 ∧
    ∃ r temps, tripling.spill ⟨"n"⟩ "n" = .ok (r, temps) ∧ temps.length = 4 ∧
      r.code.length = 16 ∧
      ∀ w t, t.pc = 0 → ∀ e,
        tripling.EndsWith w (t.unspill ⟨"n"⟩) e ↔ r.EndsWith w t e := by
  have hf : tripling.check = .ok () := toOption_eq_some.mp (by decide)
  have hargs : tripling.StackArgsAbove := by
    intro dst off h
    simp only [tripling, List.mem_cons, Instr.stackArg.injEq, reduceCtorEq, List.not_mem_nil,
      or_false] at h
    rw [h.2]
    decide
  have hfit : tripling.FrameFits 1 := by decide
  obtain ⟨r, temps, ws, hspill, hwindows, hlayout, hagrees⟩ :=
    spill_agrees hf hargs hfit ⟨"n"⟩ "n"
  have hlen : (Spill.windows ⟨"n"⟩ "n" tripling.vars 0 tripling.code).2.length = 4 ∧
      (Spill.windows ⟨"n"⟩ "n" tripling.vars 0 tripling.code).1.flatten.length = 16 := by
    decide +kernel
  rw [hwindows] at hlen
  refine ⟨hf, hargs, hfit, r, temps, hspill, hlen.1, hlayout.code ▸ hlen.2, fun w t hpc => ?_⟩
  refine (hagrees w (t.unspill ⟨"n"⟩) t ⟨?_, inSlot_unspill _ _ t⟩).2.2
  show t.pc = Spill.position ws t.pc
  rw [hpc, Spill.position_zero]

end Func

end Spillway
