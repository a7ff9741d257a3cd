import Spillway.Error

/-!
# Computations that may fail

How a result of a sequence of computations comes about: a bind succeeds when both of its parts do
(`bind_eq_ok`), a traversal when every element does (`mapM_eq_ok`, `forM_eq_ok`), and it fails with
an error of some element (`mapM_eq_error`, `forM_eq_error`). Contexts change neither.
-/

namespace Spillway

section
variable {ε α β : Type}

theorem bind_eq_ok {x : Except ε α} {f : α → Except ε β} {b : β} :
    (x >>= f) = .ok b ↔ ∃ a, x = .ok a ∧ f a = .ok b := by
  cases x with
  | error e => simp [bind, Except.bind]
  | ok a => simp [bind, Except.bind]

theorem bind_eq_error {x : Except ε α} {f : α → Except ε β} {e : ε} :
    (x >>= f) = .error e ↔ x = .error e ∨ ∃ a, x = .ok a ∧ f a = .error e := by
  cases x with
  | error e => simp [bind, Except.bind]
  | ok a => simp [bind, Except.bind]

/-- One check after the other. -/
theorem seq_eq_ok {x : Except ε Unit} {y : Except ε β} {b : β} :
    (x >>= fun _ => y) = .ok b ↔ x = .ok () ∧ y = .ok b := by
  cases x with
  | error e => simp [bind, Except.bind]
  | ok a => simp [bind, Except.bind]

theorem toOption_eq_some {x : Except ε α} {a : α} : x.toOption = some a ↔ x = .ok a := by
  cases x <;> simp [Except.toOption]

theorem ok_bind (a : α) (f : α → Except ε β) : ((.ok a : Except ε α) >>= f) = f a := rfl

/-- A traversal succeeds with the results of the elements. -/
theorem mapM_eq_ok {f : α → Except ε β} {xs : List α} {ys : List β} :
    xs.mapM f = .ok ys ↔ xs.map f = ys.map .ok := by
  induction xs generalizing ys with
  | nil =>
      rw [List.mapM_nil, List.map_nil]
      cases ys with
      | nil => simp [pure, Except.pure]
      | cons y ys => simp [pure, Except.pure]
  | cons x xs ih =>
      rw [List.mapM_cons, List.map_cons, bind_eq_ok]
      constructor
      · rintro ⟨y, hy, h⟩
        obtain ⟨zs, hzs, h⟩ := bind_eq_ok.mp h
        cases h
        rw [List.map_cons, hy, ih.mp hzs]
      · intro h
        cases ys with
        | nil => simp at h
        | cons y ys =>
            rw [List.map_cons, List.cons.injEq] at h
            exact ⟨y, h.1, bind_eq_ok.mpr ⟨ys, ih.mpr h.2, rfl⟩⟩

/-- A traversal fails with the error of an element. -/
theorem mapM_eq_error {f : α → Except ε β} {xs : List α} {e : ε} (h : xs.mapM f = .error e) :
    ∃ x ∈ xs, f x = .error e := by
  induction xs with
  | nil => simp [pure, Except.pure] at h
  | cons x xs ih =>
      rw [List.mapM_cons, bind_eq_error] at h
      rcases h with h | ⟨y, _, h⟩
      · exact ⟨x, List.mem_cons_self, h⟩
      · rcases bind_eq_error.mp h with h | ⟨ys, _, h⟩
        · obtain ⟨z, hz, hfz⟩ := ih h
          exact ⟨z, List.mem_cons_of_mem _ hz, hfz⟩
        · cases h

theorem forM_eq_ok {f : α → Except ε Unit} {xs : List α} :
    xs.forM f = .ok () ↔ ∀ x ∈ xs, f x = .ok () := by
  induction xs with
  | nil => simp [pure, Except.pure]
  | cons x xs ih =>
      show (f x >>= fun _ => xs.forM f) = .ok () ↔ _
      rw [bind_eq_ok, List.forall_mem_cons, ← ih]
      constructor
      · rintro ⟨_, hx, hxs⟩
        exact ⟨hx, hxs⟩
      · rintro ⟨hx, hxs⟩
        exact ⟨(), hx, hxs⟩

theorem forM_eq_error {f : α → Except ε Unit} {xs : List α} {e : ε} (h : xs.forM f = .error e) :
    ∃ x ∈ xs, f x = .error e := by
  induction xs with
  | nil => simp [pure, Except.pure] at h
  | cons x xs ih =>
      have h : (f x >>= fun _ => xs.forM f) = .error e := h
      rcases bind_eq_error.mp h with h | ⟨_, _, h⟩
      · exact ⟨x, List.mem_cons_self, h⟩
      · obtain ⟨z, hz, hfz⟩ := ih h
        exact ⟨z, List.mem_cons_of_mem _ hz, hfz⟩

end

section
variable {α : Type}

@[simp] theorem mapError_eq_ok {ε ε' : Type} {g : ε → ε'} {x : Except ε α} {a : α} :
    x.mapError g = .ok a ↔ x = .ok a := by
  cases x with
  | error e =>
      show Except.error (g e) = .ok a ↔ _
      simp
  | ok b =>
      show Except.ok b = .ok a ↔ _
      simp

theorem mapError_eq_error {ε ε' : Type} {g : ε → ε'} {x : Except ε α} {e : ε'} :
    x.mapError g = .error e ↔ ∃ e', x = .error e' ∧ g e' = e := by
  cases x with
  | error e' =>
      show Except.error (g e') = .error e ↔ _
      simp
  | ok b =>
      show Except.ok b = .error e ↔ _
      simp

theorem inContext_ok (c : Context) (a : α) : inContext c (.ok a) = .ok a := rfl

@[simp] theorem inContext_eq_ok {c : Context} {x : Except Error α} {a : α} :
    inContext c x = .ok a ↔ x = .ok a := mapError_eq_ok

theorem inContext_eq_error {c : Context} {x : Except Error α} {e : Error} :
    inContext c x = .error e ↔ ∃ e', x = .error e' ∧ e'.within c = e := mapError_eq_error

end

end Spillway
