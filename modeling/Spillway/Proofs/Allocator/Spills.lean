import Spillway.Allocator.Machine
import Spillway.Proofs.Frame.Spilled

/-!
# Spilling one variable after the other

What a list of spills keeps of a function (`Func.SpilledTo`). Each spill is one slot; spilling more
variables later is spilling one longer list (`spillAll_append`).
-/

namespace Spillway

/-- The function `F` is what `n` spills may have made of `f`. -/
structure Func.SpilledTo (f : Func) (n : Nat) (F : Func) : Prop where
  name : F.name = f.name
  args : F.args = f.args
  locals : F.locals = f.locals + Int64.ofNat n
  labels : F.code.filterMap Instr.label? = f.code.filterMap Instr.label?
  complete : f.isComplete = true → F.isComplete = true
  resolves : f.Resolves → F.Resolves
  check : f.check = .ok () → F.check = .ok ()

namespace Func.SpilledTo

variable {f g h : Func} {m n : Nat}

theorem refl (f : Func) : f.SpilledTo 0 f where
  name := rfl
  args := rfl
  locals := (Int64.add_zero _).symm
  labels := rfl
  complete := id
  resolves := id
  check := id

theorem trans (hfg : f.SpilledTo m g) (hgh : g.SpilledTo n h) : f.SpilledTo (m + n) h where
  name := hgh.name.trans hfg.name
  args := hgh.args.trans hfg.args
  locals := by rw [hgh.locals, hfg.locals, Int64.add_assoc, Int64.ofNat_add]
  labels := hgh.labels.trans hfg.labels
  complete hc := hgh.complete (hfg.complete hc)
  resolves hr := hgh.resolves (hfg.resolves hr)
  check hc := hgh.check (hfg.check hc)

/-- One spill. -/
theorem of_spill {v : Var} {stem : String} {temps : List Var}
    (hspill : f.spill v stem = .ok (g, temps)) : f.SpilledTo 1 g := by
  obtain ⟨_, hname, hargs, ws, hlayout⟩ := Func.spill_eq_ok hspill
  exact ⟨hname, hargs, hlayout.locals, hlayout.labels, hlayout.isComplete, hlayout.resolves,
    hlayout.check⟩

end Func.SpilledTo

namespace Machine

variable {f g : Func} {vs ws : List Var}

theorem spillAll_append : spillAll f (vs ++ ws) = spillAll f vs >>= fun g => spillAll g ws := by
  induction vs generalizing f with
  | nil => rfl
  | cons v vs ih =>
      show (f.spill v _ >>= fun p => spillAll p.1 (vs ++ ws)) =
        (f.spill v _ >>= fun p => spillAll p.1 vs) >>= fun g => spillAll g ws
      cases f.spill v (v.name ++ "_") with
      | error e => rfl
      | ok p => exact ih

theorem spillAll_cons {v : Var} : spillAll f (v :: vs) = .ok g ↔
    ∃ f' temps, f.spill v (v.name ++ "_") = .ok (f', temps) ∧ spillAll f' vs = .ok g := by
  show (f.spill v _ >>= fun p => spillAll p.1 vs) = .ok g ↔ _
  rw [bind_eq_ok]
  constructor
  · rintro ⟨⟨f', temps⟩, hspill, hrest⟩
    exact ⟨f', temps, hspill, hrest⟩
  · rintro ⟨f', temps, hspill, hrest⟩
    exact ⟨(f', temps), hspill, hrest⟩

/-- A list of spills keeps what each of them keeps. -/
theorem spilledTo_of_spillAll (h : spillAll f vs = .ok g) : f.SpilledTo vs.length g := by
  induction vs generalizing f with
  | nil =>
      cases h
      exact .refl _
  | cons v vs ih =>
      obtain ⟨f', temps, hspill, hrest⟩ := spillAll_cons.mp h
      have htrans := (Func.SpilledTo.of_spill hspill).trans (ih hrest)
      rwa [Nat.add_comm] at htrans

/-- What holds of every instruction still does after a list of spills, if windows keep it. -/
theorem forall_of_spillAll {P : Instr → Prop}
    (hmade : ∀ {v used i j}, Spill.Made v used i j → P i → P j)
    (h : spillAll f vs = .ok g) (hf : ∀ i ∈ f.code, P i) : ∀ j ∈ g.code, P j := by
  induction vs generalizing f with
  | nil =>
      cases h
      exact hf
  | cons v vs ih =>
      obtain ⟨f', temps, hspill, hrest⟩ := spillAll_cons.mp h
      obtain ⟨_, _, _, ws, hlayout⟩ := Func.spill_eq_ok hspill
      refine ih hrest fun j hj => ?_
      obtain ⟨i, hi, hij⟩ := hlayout.made hj
      exact hmade hij (hf i hi)

/-- Spilling from a function without missing instructions succeeds. -/
theorem spillAll_isOk (hf : f.isComplete = true) (vs : List Var) : ∃ g, spillAll f vs = .ok g := by
  induction vs generalizing f with
  | nil => exact ⟨f, rfl⟩
  | cons v vs ih =>
      obtain ⟨f', temps, hspill⟩ := Func.spill_isOk hf v (v.name ++ "_")
      obtain ⟨g, hg⟩ := ih ((Func.SpilledTo.of_spill hspill).complete hf)
      exact ⟨g, spillAll_cons.mpr ⟨f', temps, hspill, hg⟩⟩

end Machine

end Spillway
