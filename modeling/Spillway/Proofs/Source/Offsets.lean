import Spillway.Source.Reader
import Spillway.Proofs.Source.Trees

/-!
# Reading does not depend on places

Names and offsets only serve to report faults: reading a tree in one source succeeds exactly if
reading it without its offsets in another source does, and with the same result
(`Source.program_erase`).
-/

namespace Spillway

/-! ## Results without errors -/

section
variable {ε α β : Type}

theorem toOption_bind (x : Except ε α) (f : α → Except ε β) :
    (x >>= f).toOption = x.toOption.bind fun a => (f a).toOption := by
  cases x <;> rfl

theorem toOption_inContext (c : Context) (x : Except Error α) :
    (inContext c x).toOption = x.toOption := by
  cases x <;> rfl

end

namespace Tree

theorem text?_erase (t : Tree) : t.erase.text? = t.text? := by
  cases t <;> rfl

theorem operand_erase (t : Tree) : t.erase.operand = t.operand := by
  cases t <;> rfl

theorem callee_erase (t : Tree) : t.erase.callee = t.callee := by
  cases t <;> rfl

end Tree

open Spillway.Tree

namespace Source

variable (src src' : Source)

/-! ## Parts of instructions -/

theorem label_erase (t : Tree) : (src.label t.erase).toOption = (src'.label t).toOption := by
  unfold label
  rw [text?_erase]
  split <;> rfl

theorem number_erase (t : Tree) : (src.number t.erase).toOption = (src'.number t).toOption := by
  cases t with
  | list o items => rfl
  | atom o s =>
      unfold erase number
      simp only
      split <;> rfl

theorem cond_erase (t : Tree) : (src.cond t.erase).toOption = (src'.cond t).toOption := by
  unfold cond
  rw [text?_erase]
  split <;> rfl

theorem mem_erase (t : Tree) : (src.mem t.erase).toOption = (src'.mem t).toOption := by
  match t with
  | .atom .. => rfl
  | .list _ [.atom a s, base, off] =>
      by_cases hs : s = "mem"
      · subst hs
        show (src.number off.erase >>= fun n => .ok (base.erase.operand, n)).toOption =
          (src'.number off >>= fun n => .ok (base.operand, n)).toOption
        rw [toOption_bind, toOption_bind, number_erase src src', operand_erase]
      · simp [erase, eraseAll, mem, hs, Except.toOption]
  | .list _ [.list .., _, _] | .list _ [] => rfl
  | .list _ [_] | .list _ [_, _] | .list _ (_ :: _ :: _ :: _ :: _) =>
      simp [erase, eraseAll, mem, Except.toOption]

/-- What is no stack argument is read as a memory cell. -/
theorem moveFrom_eq_load {dst : Operand} {t : Tree}
    (h : ∀ o a off, t ≠ .list o [.atom a "stack-arg", off]) :
    src.moveFrom dst t = src.mem t >>= fun p => .ok (Instr.load dst p.1 p.2) := by
  unfold moveFrom
  split
  · exact absurd rfl (h _ _ _)
  · rfl

theorem moveFrom_erase (dst : Operand) (t : Tree) :
    (src.moveFrom dst t.erase).toOption = (src'.moveFrom dst t).toOption := by
  by_cases h : ∃ o a off, t = .list o [.atom a "stack-arg", off]
  · obtain ⟨o, a, off, rfl⟩ := h
    show (src.number off.erase >>= fun n => .ok (Instr.stackArg dst n)).toOption =
      (src'.number off >>= fun n => .ok (Instr.stackArg dst n)).toOption
    rw [toOption_bind, toOption_bind, number_erase src src']
  · have hne : ∀ o a off, t ≠ .list o [.atom a "stack-arg", off] :=
      fun o a off ht => h ⟨o, a, off, ht⟩
    have hne' : ∀ o a off, t.erase ≠ .list o [.atom a "stack-arg", off] := by
      intro o a off ht
      obtain ⟨_, o', ts, rfl, hts⟩ := erase_eq_list.mp ht
      obtain ⟨head, ts, rfl, hhead, htail⟩ := eraseAll_eq_cons.mp hts
      obtain ⟨off', ts, rfl, _, hnil⟩ := eraseAll_eq_cons.mp htail
      obtain ⟨_, a', rfl⟩ := erase_eq_atom.mp hhead
      cases eraseAll_eq_nil.mp hnil
      exact hne _ _ _ rfl
    rw [moveFrom_eq_load src hne', moveFrom_eq_load src' hne, toOption_bind, toOption_bind,
      mem_erase src src']

theorem memUpdate_erase (o o' : Nat) (cell : Tree) (a a' : Nat) (op : String) (args : List Tree) :
    (src.memUpdate o cell.erase a op (eraseAll args)).toOption =
      (src'.memUpdate o' cell a' op args).toOption := by
  unfold memUpdate
  rw [toOption_bind, toOption_bind, mem_erase src src']
  congr 1
  funext p
  match args with
  | [] | _ :: _ :: _ => rfl
  | [x] =>
      simp only [eraseAll, operand_erase]
      split <;> rfl

theorem arith_erase (o o' : Nat) (op : Op) (dst : Operand) (args : List Tree) :
    (src.arith o op dst (eraseAll args)).toOption = (src'.arith o' op dst args).toOption := by
  match args with
  | [] | [.atom ..] => rfl
  | _ :: _ :: _ => simp [eraseAll, arith, Except.toOption]
  | [.list a items] =>
      show (src.mem (Tree.list a items).erase >>= fun p =>
          .ok (Instr.arithLoad op dst p.1 p.2)).toOption =
        (src'.mem (.list a items) >>= fun p => .ok (Instr.arithLoad op dst p.1 p.2)).toOption
      rw [toOption_bind, toOption_bind, mem_erase src src']

theorem shift_erase (o o' : Nat) (op : Op) (dst : Operand) (args : List Tree) :
    (src.shift o op dst (eraseAll args)).toOption = (src'.shift o' op dst args).toOption := by
  match args with
  | [] | _ :: _ :: _ => rfl
  | [x] => simp only [eraseAll, shift, operand_erase, Except.toOption]

/-! ## Instructions -/

theorem update_erase (o o' : Nat) (dst : Operand) (a a' : Nat) (op : String) (args : List Tree) :
    (src.update o dst a op (eraseAll args)).toOption =
      (src'.update o' dst a' op args).toOption := by
  unfold update
  split
  · cases args <;> rfl
  · cases args <;> rfl
  · match args with
    | [.atom ..] => rfl
    | [.list b items] => exact moveFrom_erase src src' dst (.list b items)
    | [l, c, r] =>
        simp only [eraseAll, operand_erase]
        rw [toOption_bind, toOption_bind, cond_erase src src']
    | [] => rfl
    | [_, _] | _ :: _ :: _ :: _ :: _ => simp [eraseAll, Except.toOption]
  · match args with
    | [base, index, scale] =>
        simp only [eraseAll, operand_erase]
        rw [toOption_bind, toOption_bind, number_erase src src']
    | [] | [_] | [_, _] | _ :: _ :: _ :: _ :: _ => rfl
  · exact shift_erase src src' ..
  · exact shift_erase src src' ..
  · exact arith_erase src src' ..
  · exact arith_erase src src' ..
  · exact arith_erase src src' ..
  · exact arith_erase src src' ..
  · rfl

theorem operation_erase (o o' : Nat) (head : Tree) (items : List Tree) :
    (src.operation o head.erase (eraseAll items)).toOption =
      (src'.operation o' head items).toOption := by
  match items, head with
  | [], _ | .list .. :: _, _ => rfl
  | .atom a op :: args, .list b ts => exact memUpdate_erase src src' o o' (.list b ts) 0 a op args
  | .atom a op :: args, .atom b t => exact update_erase src src' o o' _ 0 a op args

theorem form_erase (o o' : Nat) (head : Tree) (items : List Tree) :
    (src.form o head.erase (eraseAll items)).toOption = (src'.form o' head items).toOption := by
  unfold form
  rw [text?_erase]
  split
  · cases items <;> rfl
  · match items with
    | [l] =>
        show (src.label l.erase >>= fun l => .ok (Instr.goto l)).toOption =
          (src'.label l >>= fun l => .ok (Instr.goto l)).toOption
        rw [toOption_bind, toOption_bind, label_erase src src']
    | [] | _ :: _ :: _ => rfl
  · match items with
    | [l, c, r, yes, no] =>
        simp only [eraseAll, operand_erase]
        simp only [toOption_bind, cond_erase src src', label_erase src src']
    | [] | [_] | [_, _] | [_, _, _] | [_, _, _, _] | _ :: _ :: _ :: _ :: _ :: _ :: _ => rfl
  · match items with
    | [u, n] =>
        simp only [eraseAll, callee_erase, toOption_bind, number_erase src src']
    | [] | [_] | _ :: _ :: _ :: _ => rfl
  · exact operation_erase src src' o o' head items

theorem instr_erase (t : Tree) : (src.instr t.erase).toOption = (src'.instr t).toOption := by
  match t with
  | .list _ [] => rfl
  | .list o (head :: items) => exact form_erase src src' 0 o head items
  | .atom o s =>
      show
        (inContext _ (src.label (Tree.atom o s).erase) >>= fun l => .ok (Instr.label l)).toOption =
        (inContext _ (src'.label (.atom o s)) >>= fun l => .ok (Instr.label l)).toOption
      simp only [toOption_bind, toOption_inContext, label_erase src src']

/-! ## Functions and programs -/

theorem mapM_erase {α : Type} {f g : Tree → Except Error α}
    (h : ∀ t : Tree, (f t.erase).toOption = (g t).toOption) (ts : List Tree) :
    ((eraseAll ts).mapM f).toOption = (ts.mapM g).toOption := by
  induction ts with
  | nil => rfl
  | cons t ts ih =>
      rw [eraseAll, List.mapM_cons, List.mapM_cons]
      simp only [toOption_bind, h, ih]

theorem func_erase (t : Tree) : (src.func t.erase).toOption = (src'.func t).toOption := by
  match t with
  | .atom .. | .list _ [] | .list _ [_] | .list _ [_, _] => rfl
  | .list o (name :: args :: locals :: code) =>
      have hcode : ∀ n : Label,
          ((eraseAll code).mapM fun t => inContext (.function n) (src.instr t)).toOption =
            (code.mapM fun t => inContext (.function n) (src'.instr t)).toOption := by
        intro n
        refine mapM_erase (fun t => ?_) code
        rw [toOption_inContext, toOption_inContext, instr_erase src src']
      simp only [erase, eraseAll, func, toOption_bind, toOption_inContext, label_erase src src',
        number_erase src src', hcode]

/-- Reading a program depends neither on the source nor on offsets. -/
theorem program_erase (t : Tree) : (src.program t.erase).toOption = (src'.program t).toOption := by
  match t with
  | .atom .. | .list _ [] | .list _ [_] => rfl
  | .list o (entry :: f :: fs) =>
      have hfuncs := mapM_erase (func_erase src src') (f :: fs)
      rw [eraseAll] at hfuncs
      simp only [erase, eraseAll, program, toOption_bind, toOption_inContext, label_erase src src',
        hfuncs]

end Source

end Spillway
