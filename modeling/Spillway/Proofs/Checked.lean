import Spillway.Error

/-!
# Checked computations

A computation whose accesses are checked: where an element of a list or an array is read or
written, the index has to be one of its elements, where a list is cut, the two ends have to lie
inside of it, and where something is taken out of an `Option`, it has to be there. A computation
that does otherwise goes astray (`Checked.stray`), which is apart from every result, those that are
errors included.

A loop that goes over one list and changes a second one at the same indices is `Checked.changeAll`.
What it comes to without any index is `changeAll_zero`, and for a list that is filled up in this way
`fill_eq`.
-/

namespace Spillway

/-- The result of a computation whose accesses are checked. -/
inductive Checked (α : Type) where
  /-- Something was to be read where there is nothing. -/
  | stray
  | done (result : Except Error α)

namespace Checked

variable {α β σ : Type}

instance : Monad Checked where
  pure a := done (.ok a)
  bind
    | stray, _ => stray
    | done (.error e), _ => done (.error e)
    | done (.ok a), f => f a

instance : LawfulMonad Checked :=
  .mk' Checked (fun x => by rcases x with _ | _ | _ <;> rfl) (fun _ _ => rfl)
    (fun x _ _ => by rcases x with _ | _ | _ <;> rfl)

@[simp] theorem pure_inj {a b : α} : (pure a : Checked α) = pure b ↔ a = b :=
  ⟨fun h => Except.ok.inj (done.inj h), fun h => congrArg pure h⟩

@[simp] theorem done_ok_bind (a : α) (f : α → Checked β) : (done (.ok a) >>= f) = f a := rfl

@[simp] theorem done_error_bind (e : Error) (f : α → Checked β) :
    (done (.error e) >>= f) = done (.error e) := rfl

@[simp] theorem stray_bind (f : α → Checked β) : (stray >>= f) = stray := rfl

/-- Computations that do not go astray do not when put one after the other. -/
theorem done_bind (r : Except Error α) {f : α → Checked β} {g : α → Except Error β}
    (h : ∀ a, r = .ok a → f a = done (g a)) : (done r >>= f) = done (r >>= g) := by
  cases r with
  | error e => rfl
  | ok a => exact h a rfl

/-- The same error, in a context. -/
def within (c : Context) : Checked α → Checked α
  | stray => stray
  | done r => done (inContext c r)

/-- The result of a computation, an error too, to go on with. -/
def attempt : Checked α → Checked (Except Error α)
  | stray => stray
  | done r => pure r

/-! ## Accesses -/

/-- What has to be there. -/
def need : Option α → Checked α
  | some x => pure x
  | none => stray

/-- The element at an index. -/
def item (xs : List α) (i : Nat) : Checked α :=
  match xs[i]? with
  | some x => pure x
  | none => stray

/-- The elements from one index up to another one. -/
def slice (xs : List α) (i j : Nat) : Checked (List α) :=
  if i ≤ j ∧ j ≤ xs.length then pure ((xs.take j).drop i) else stray

/-- The list with another element at an index. -/
def setItem (xs : List α) (i : Nat) (x : α) : Checked (List α) :=
  if i < xs.length then pure (xs.set i x) else stray

/-- The element of an array at an index. -/
def cell (xs : Array α) (i : Nat) : Checked α := need xs[i]?

/-- The array with another element at an index. -/
def setCell (xs : Array α) (i : Nat) (x : α) : Checked (Array α) :=
  if i < xs.size then pure (xs.setIfInBounds i x) else stray

theorem item_eq {xs : List α} {i : Nat} {x : α} (h : xs[i]? = some x) : item xs i = pure x := by
  simp only [item, h]

theorem item_eq_getD {xs : List α} {i : Nat} (h : i < xs.length) (x : α) :
    item xs i = pure (xs.getD i x) := by
  rw [item_eq (List.getElem?_eq_getElem h), List.getD_eq_getElem?_getD,
    List.getElem?_eq_getElem h, Option.getD_some]

theorem slice_eq {xs : List α} {i j : Nat} (hij : i ≤ j) (hj : j ≤ xs.length) :
    slice xs i j = pure ((xs.take j).drop i) := if_pos ⟨hij, hj⟩

theorem setItem_eq {xs : List α} {i : Nat} (h : i < xs.length) (x : α) :
    setItem xs i x = pure (xs.set i x) := if_pos h

theorem cell_eq {xs : Array α} {i : Nat} {x : α} (h : xs[i]? = some x) : cell xs i = pure x := by
  rw [cell, h]
  rfl

theorem cell_eq_getD {xs : Array α} {i : Nat} (h : i < xs.size) (x : α) :
    cell xs i = pure (xs.getD i x) := by
  rw [cell_eq (Array.getElem?_eq_getElem h), Array.getD_eq_getD_getElem?,
    Array.getElem?_eq_getElem h, Option.getD_some]

theorem setCell_eq {xs : Array α} {i : Nat} (h : i < xs.size) (x : α) :
    setCell xs i x = pure (xs.setIfInBounds i x) := if_pos h

theorem modify_eq_setIfInBounds {xs : Array α} {i : Nat} {x : α} (h : xs[i]? = some x)
    (f : α → α) : xs.modify i f = xs.setIfInBounds i (f x) := by
  refine Array.ext_getElem? fun n => ?_
  have hi : i < xs.size := (Array.getElem?_eq_some_iff.mp h).1
  rw [Array.getElem?_modify, Array.getElem?_setIfInBounds]
  by_cases hn : i = n
  · subst hn
    rw [if_pos rfl, if_pos rfl, if_pos hi, h, Option.map_some]
  · rw [if_neg hn, if_neg hn]

/-! ## Loops -/

theorem mapM_pure {f : α → Checked β} {g : α → β} {xs : List α} (h : ∀ x ∈ xs, f x = pure (g x)) :
    xs.mapM f = pure (xs.map g) := by
  induction xs with
  | nil => rfl
  | cons x xs ih =>
      rw [List.mapM_cons, h x List.mem_cons_self, pure_bind,
        ih fun y hy => h y (List.mem_cons_of_mem x hy), pure_bind, List.map_cons]

theorem mapM_done (f : α → Except Error β) (xs : List α) :
    (xs.mapM fun x => done (f x)) = done (xs.mapM f) := by
  induction xs with
  | nil => rfl
  | cons x xs ih =>
      rw [List.mapM_cons, List.mapM_cons, ih]
      exact done_bind _ fun y _ => done_bind _ fun ys _ => rfl

/-- Steps that do not go astray where an invariant holds, and keep it, do not when taken in turn. -/
theorem foldlM_pure {f : σ → α → Checked σ} {g : σ → α → σ} (P : σ → Prop) {xs : List α} {s : σ}
    (hs : P s) (h : ∀ s, P s → ∀ x ∈ xs, f s x = pure (g s x) ∧ P (g s x)) :
    xs.foldlM f s = pure (xs.foldl g s) ∧ P (xs.foldl g s) := by
  induction xs generalizing s with
  | nil => exact ⟨rfl, hs⟩
  | cons x xs ih =>
      obtain ⟨hstep, hnext⟩ := h s hs x List.mem_cons_self
      rw [List.foldlM_cons, hstep, pure_bind, List.foldl_cons]
      exact ih hnext fun s hs y hy => h s hs y (List.mem_cons_of_mem x hy)

/-- Steps that do not go astray in any state. -/
theorem foldlM_eq {f : σ → α → Checked σ} {g : σ → α → σ} {xs : List α}
    (h : ∀ s, ∀ x ∈ xs, f s x = pure (g s x)) (s : σ) : xs.foldlM f s = pure (xs.foldl g s) :=
  (foldlM_pure (fun _ => True) trivial fun s _ x hx => ⟨h s x hx, trivial⟩).1

theorem foldlM_zipIdx_drop (f : σ → β → α → Checked σ) {xs : Array α} {ys : List β} {n : Nat}
    (h : xs.size = n + ys.length) (s : σ) :
    (ys.zipIdx n).foldlM (fun s p => do f s p.1 (← cell xs p.2)) s =
      (ys.zip (xs.toList.drop n)).foldlM (fun s p => f s p.1 p.2) s := by
  induction ys generalizing n s with
  | nil => rfl
  | cons y ys ih =>
      rw [List.length_cons] at h
      have hn : n < xs.size := by omega
      rw [List.zipIdx_cons, List.drop_eq_getElem_cons (by simpa using hn), List.zip_cons_cons,
        List.foldlM_cons, List.foldlM_cons, cell_eq (Array.getElem?_eq_getElem hn), pure_bind]
      exact bind_congr fun s => ih (by omega) s

/-- A loop over a list that reads an array at the index of the element. -/
theorem foldlM_zipIdx (f : σ → β → α → Checked σ) {xs : Array α} {ys : List β}
    (h : xs.size = ys.length) (s : σ) :
    ys.zipIdx.foldlM (fun s p => do f s p.1 (← cell xs p.2)) s =
      (ys.zip xs.toList).foldlM (fun s p => f s p.1 p.2) s :=
  foldlM_zipIdx_drop f (h.trans (Nat.zero_add _).symm) s

/-- Change the elements of a list at the indices from `i` on, each with the element of a second list
that stands as far from its start. -/
def changeAll (f : Nat → α → β → Checked α) : Nat → List β → List α → Checked (List α)
  | _, [], xs => pure xs
  | i, y :: ys, xs => do
    let x ← f i (← item xs i) y
    changeAll f (i + 1) ys (← setItem xs i x)

/-- The same change, going over both lists at once. -/
def changed (f : Nat → α → β → Checked α) : Nat → List β → List α → Checked (List α)
  | _, [], xs => pure xs
  | _, _ :: _, [] => stray
  | i, y :: ys, x :: xs => do return (← f i x y) :: (← changed f (i + 1) ys xs)

theorem changeAll_eq (f : Nat → α → β → Checked α) (ys : List β) (pre xs : List α) :
    changeAll f pre.length ys (pre ++ xs) = (pre ++ ·) <$> changed f pre.length ys xs := by
  induction ys generalizing pre xs with
  | nil => rfl
  | cons y ys ih =>
      cases xs with
      | nil =>
          have hnone : (pre ++ ([] : List α))[pre.length]? = none := by simp
          simp only [changeAll, item, hnone, stray_bind]
          rfl
      | cons x xs =>
          have hitem : (pre ++ x :: xs)[pre.length]? = some x := by simp
          simp only [changeAll, changed, item_eq hitem, pure_bind, map_bind, map_pure]
          refine bind_congr fun x' => ?_
          have hset : (pre ++ x :: xs).set pre.length x' = (pre ++ [x']) ++ xs := by simp
          rw [setItem_eq (by simp), pure_bind, hset]
          have hrest := ih (pre ++ [x']) xs
          rw [List.length_append, List.length_singleton] at hrest
          rw [hrest, ← bind_pure_comp]
          refine bind_congr fun zs => ?_
          simp

/-- The loop over a whole list. -/
theorem changeAll_zero (f : Nat → α → β → Checked α) (ys : List β) (xs : List α) :
    changeAll f 0 ys xs = changed f 0 ys xs :=
  (changeAll_eq f ys [] xs).trans (id_map _)

/-- Fill up a new list, with one element for every element of a list. -/
def fill [Inhabited α] (xs : List β) (f : Nat → β → Checked α) : Checked (List α) :=
  changeAll (fun i _ x => f i x) 0 xs (List.replicate xs.length default)

theorem changed_replicate (f : Nat → β → Checked α) (i : Nat) (xs : List β) (x : α) :
    changed (fun i _ x => f i x) i xs (List.replicate xs.length x) =
      (xs.zipIdx i).mapM fun p => f p.2 p.1 := by
  induction xs generalizing i with
  | nil => rfl
  | cons y xs ih =>
      rw [List.length_cons, List.replicate_succ, changed, ih, List.zipIdx_cons, List.mapM_cons]

theorem fill_eq [Inhabited α] (xs : List β) (f : Nat → β → Checked α) :
    fill xs f = xs.zipIdx.mapM fun p => f p.2 p.1 := by
  rw [fill, changeAll_zero, changed_replicate]

theorem fill_pure [Inhabited α] {xs : List β} {f : Nat → β → Checked α} {g : β → α}
    (h : ∀ i, ∀ x ∈ xs, f i x = pure (g x)) : fill xs f = pure (xs.map g) := by
  have hmap : xs.zipIdx.map (g ∘ Prod.fst) = xs.map g := by
    rw [← List.map_map, List.zipIdx_map_fst]
  rw [fill_eq, ← hmap]
  exact mapM_pure fun p hp => h p.2 p.1 (List.fst_mem_of_mem_zipIdx hp)

end Checked

end Spillway
