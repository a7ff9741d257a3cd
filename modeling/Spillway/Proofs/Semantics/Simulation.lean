import Spillway.Proofs.Semantics.Basic

/-!
# Simulation

One function simulates another when some relation between their states is kept by one step of the
first against one or more steps of the second (`Simulates`). Steps are functions of states, so this
one direction is enough: related states lead to the same observations of either function
(`Simulates.observes_iff`), and if one of them runs forever so does the other.

A convention observes few registers, and none when a function runs off its end. Outcomes may also
agree on all of them (`Outcome.Agrees`). What a step of the first function carries over to the
second, a run does, for any comparison of outcomes that sets those that go on apart from the ends
(`Outcome.Lifts`, `Func.run_lifts`).
-/

namespace Spillway

variable {c : Convention} {w : World} {f g : Func} {R : State → State → Prop}

/-- Both outcomes go on, in related states, or both are an end, and the ends look alike. -/
def Outcome.Matches (c : Convention) (R : State → State → Prop) : Outcome → Outcome → Prop
  | running s, running t => R s t
  | running _, _ => False
  | _, running _ => False
  | o, o' => o.observed c = o'.observed c

/-- Both outcomes go on, in related states, or both come to an end of the same kind, with the same
registers and the same heap. -/
inductive Outcome.Agrees (R : State → State → Prop) : Outcome → Outcome → Prop
  | running {s t : State} : R s t → Agrees R (running s) (running t)
  | returned {s t : State} : t.regs = s.regs → t.heap = s.heap →
      Agrees R (returned s) (returned t)
  | ended {s t : State} : t.regs = s.regs → t.heap = s.heap → Agrees R (ended s) (ended t)
  | stuck : Agrees R stuck stuck

theorem Outcome.Agrees.toMatches {o o' : Outcome} (h : Outcome.Agrees R o o') (c : Convention) :
    Outcome.Matches c R o o' := by
  cases h with
  | running hR => exact hR
  | returned hregs hheap =>
      show some (Observation.returned _ _) = some (Observation.returned _ _)
      rw [hregs, hheap]
  | ended _ hheap =>
      show some (Observation.ended _) = some (Observation.ended _)
      rw [hheap]
  | stuck => rfl

/-- Every step of `f` from a related state is matched by one or more steps of `g`. -/
def Simulates (c : Convention) (w : World) (f g : Func) (R : State → State → Prop) : Prop :=
  ∀ s t, R s t → ∃ k, Outcome.Matches c R (f.step w s) (g.run w (k + 1) t)

namespace Func

theorem run_one (s : State) : f.run w 1 s = f.step w s := by
  simp only [run]
  cases f.step w s <;> rfl

theorem run_add (m n : Nat) (s : State) :
    f.run w (m + n) s = match f.run w m s with
      | .running s' => f.run w n s'
      | o => o := by
  induction m generalizing s with
  | zero => rw [Nat.zero_add]; rfl
  | succ m ih =>
      rw [Nat.add_right_comm]
      simp only [run]
      cases f.step w s with
      | running s' => exact ih s'
      | returned s' => rfl
      | ended s' => rfl
      | stuck => rfl

theorem run_add_of_running {m : Nat} {s s' : State} (h : f.run w m s = .running s') (n : Nat) :
    f.run w (m + n) s = f.run w n s' := by
  rw [run_add, h]

/-- An end is final. -/
theorem run_add_of_end {m : Nat} {s : State} (h : ∀ s', f.run w m s ≠ .running s') (n : Nat) :
    f.run w (m + n) s = f.run w m s := by
  rw [run_add]
  cases hr : f.run w m s with
  | running s' => exact absurd hr (h s')
  | returned s' => rfl
  | ended s' => rfl
  | stuck => rfl

theorem run_add_of_observed {m : Nat} {s : State} {o : Observation}
    (h : (f.run w m s).observed c = some o) (n : Nat) : f.run w (m + n) s = f.run w m s := by
  refine run_add_of_end (fun s' hr => ?_) n
  rw [hr] at h
  cases h

end Func

namespace Outcome.Matches

theorem running_left {s : State} {o : Outcome} (h : Outcome.Matches c R (.running s) o) :
    ∃ t, o = .running t ∧ R s t := by
  cases o with
  | running t => exact ⟨t, rfl, h⟩
  | returned t => exact h.elim
  | ended t => exact h.elim
  | stuck => exact h.elim

theorem observed_eq {o o' : Outcome} (h : Outcome.Matches c R o o') :
    o.observed c = o'.observed c := by
  cases o with
  | running s =>
      obtain ⟨t, rfl, _⟩ := running_left h
      rfl
  | returned s => cases o' <;> first | exact h | exact h.elim
  | ended s => cases o' <;> first | exact h | exact h.elim
  | stuck => cases o' <;> first | exact h | exact h.elim

theorem running_right {t : State} {o : Outcome} (h : Outcome.Matches c R o (.running t)) :
    ∃ s, o = .running s := by
  cases o with
  | running s => exact ⟨s, rfl⟩
  | returned s => exact h.elim
  | ended s => exact h.elim
  | stuck => exact h.elim

end Outcome.Matches

/-! ## Runs -/

/-- A comparison of outcomes that comes from one of states: outcomes that go on compare by their
states, and do not compare to an end. -/
structure Outcome.Lifts (R : State → State → Prop) (M : Outcome → Outcome → Prop) : Prop where
  running : ∀ {s t : State}, R s t → M (.running s) (.running t)
  running_left : ∀ {s : State} {o : Outcome}, M (.running s) o → ∃ t, o = .running t ∧ R s t
  running_right : ∀ {t : State} {o : Outcome}, M o (.running t) → ∃ s, o = .running s

theorem Outcome.lifts_matches : Outcome.Lifts R (Outcome.Matches c R) :=
  ⟨fun h => h, Matches.running_left, Matches.running_right⟩

theorem Outcome.lifts_agrees : Outcome.Lifts R (Outcome.Agrees R) := by
  refine ⟨.running, fun h => ?_, fun h => ?_⟩
  · cases h with
    | running hR => exact ⟨_, rfl, hR⟩
  · cases h with
    | running _ => exact ⟨_, rfl⟩

/-- What holds of one step and one or more steps of the second function holds of runs. The second
function takes at least as many steps as the first. -/
theorem Func.run_lifts {M : Outcome → Outcome → Prop} (hM : Outcome.Lifts R M)
    (hstep : ∀ s t, R s t → ∃ k, M (f.step w s) (g.run w (k + 1) t)) {s t : State} (hR : R s t)
    (n : Nat) : ∃ m, n ≤ m ∧ M (f.run w n s) (g.run w m t) := by
  induction n generalizing s t with
  | zero => exact ⟨0, Nat.le_refl 0, hM.running hR⟩
  | succ n ih =>
      obtain ⟨k, hk⟩ := hstep s t hR
      simp only [Func.run]
      cases hs : f.step w s with
      | running s' =>
          rw [hs] at hk
          obtain ⟨t', ht', hR'⟩ := hM.running_left hk
          obtain ⟨m, hm, hrest⟩ := ih hR'
          refine ⟨k + 1 + m, by omega, ?_⟩
          rw [Func.run_add_of_running ht']
          exact hrest
      | returned s' | ended s' | stuck =>
          -- the second function is over too, and stays so for as many steps as are asked for
          rw [hs] at hk
          refine ⟨k + 1 + n, by omega, ?_⟩
          rw [Func.run_add_of_end fun t' ht' => ?_]
          · exact hk
          · rw [ht'] at hk
            obtain ⟨_, h⟩ := hM.running_right hk
            cases h

namespace Simulates

theorem run (h : Simulates c w f g R) {s t : State} (hR : R s t) (n : Nat) :
    ∃ m, n ≤ m ∧ Outcome.Matches c R (f.run w n s) (g.run w m t) :=
  Func.run_lifts Outcome.lifts_matches h hR n

/-- What the first function shows, the second shows. -/
theorem observes (h : Simulates c w f g R) {s t : State} (hR : R s t) {o : Observation}
    (ho : Observes c w f s o) : Observes c w g t o := by
  obtain ⟨n, hn⟩ := ho
  obtain ⟨m, _, hmatch⟩ := h.run hR n
  exact ⟨m, by rw [← hmatch.observed_eq]; exact hn⟩

/-- What the second function shows, the first shows: it cannot lag behind forever, since each of
its steps takes the second at least one. -/
theorem observes_back (h : Simulates c w f g R) {s t : State} (hR : R s t) {o : Observation}
    (ho : Observes c w g t o) : Observes c w f s o := by
  obtain ⟨n, hn⟩ := ho
  obtain ⟨m, hnm, hmatch⟩ := h.run hR n
  have hend := Func.run_add_of_observed hn (m - n)
  rw [Nat.add_sub_cancel' hnm] at hend
  exact ⟨n, by rw [hmatch.observed_eq, hend]; exact hn⟩

/-- Related states lead to the same observations. -/
theorem observes_iff (h : Simulates c w f g R) {s t : State} (hR : R s t) (o : Observation) :
    Observes c w f s o ↔ Observes c w g t o :=
  ⟨h.observes hR, h.observes_back hR⟩

end Simulates

end Spillway
