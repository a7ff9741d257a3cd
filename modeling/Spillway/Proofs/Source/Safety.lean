import Mathlib.Data.List.Basic
import Spillway.Proofs.Results
import Spillway.Proofs.Source.Indexed

/-!
# Reading is safe

The reader by index goes on to programs here. It looks at the items of a list and at the characters
of an atom by index, with every access checked, under the tests of length that stand before it.

On the trees of a text it never goes astray and has the results of `Source.program`
(`Indexed.agrees_program`). An error is then always the report of a fault at a place of the text,
perhaps in contexts (`Source.Reports`), and so is every error of `Program.parse` and `Func.parse`
(`Program.parse_safe`).
-/

namespace Spillway

open Checked

namespace Tree

/-- The items of a list; an atom has none. -/
def parts : Tree → List Tree
  | atom .. => []
  | list _ items => items

/-- The characters of an atom; a list has none. -/
def chars (t : Tree) : List Char := (t.text?.getD "").toList

end Tree

namespace Indexed

/-! ## The reader of trees

Every function follows the one of its name in `Source` or `Tree`. Those for parts of an instruction
get all of its items, from the first one on, and test how many there are. -/

def label (src : Source) (t : Tree) : Checked Label :=
  if t.chars.length < 2 then fault src t.offset .label
  else do
    let c ← item t.chars 0
    if c ≠ ':' then fault src t.offset .label
    else return ⟨String.ofList (← slice t.chars 1 t.chars.length)⟩

def number (src : Source) : Tree → Checked Int64
  | .list offset _ => fault src offset .number
  | .atom offset word =>
    match Decimal.readInt64? word with
    | some n => pure n
    | none => fault src offset (.badNumber word)

def cond (src : Source) (t : Tree) : Checked Cond :=
  match t.text?.map Cond.ofSymbol with
  | some .lt => pure .lt
  | some .le => pure .le
  | some .eq => pure .eq
  | _ => fault src t.offset .comparison

/-- The operand that a tree is. The first character is looked at without a test of length. -/
def operand : Tree → Checked Operand
  | .list .. => pure .hole
  | .atom _ word =>
    match Reg.ofName? word with
    | some r => pure (.reg r)
    | none => do
      let c ← item word.toList 0
      if c = ':' then return .label ⟨String.ofList (← slice word.toList 1 word.toList.length)⟩
      else match Decimal.readInt64? word with
        | some n => pure (.num n)
        | none => pure (.var ⟨word⟩)

def callee (t : Tree) : Checked Operand := do
  let x ← operand t
  match t.text? with
  | some name => if name ∈ runtimeNames then return .runtime name else return x
  | none => return x

/-- Whether a tree is a list of so many items that starts with this atom. -/
def isForm (t : Tree) (word : String) (n : Nat) : Checked Bool :=
  if t.parts.length ≠ n then pure false
  else return (← item t.parts 0).text? == some word

def mem (src : Source) (t : Tree) : Checked (Operand × Int64) := do
  if ← isForm t "mem" 3 then
    let off ← number src (← item t.parts 2)
    return (← operand (← item t.parts 1), off)
  else fault src t.offset .mem

def moveFrom (src : Source) (dst : Operand) (t : Tree) : Checked Instr := do
  if ← isForm t "stack-arg" 2 then return .stackArg dst (← number src (← item t.parts 1))
  else
    let (base, off) ← mem src t
    return .load dst base off

/-- The last part of `memUpdate`, once the memory cell is known. -/
def writeMem (src : Source) (base : Operand) (off : Int64) (at_ : Nat) (op : String)
    (l : List Tree) : Checked Instr :=
  match op with
  | "<-" => return .store base off (← operand (← item l 2))
  | "+=" => return .memArith .add base off (← operand (← item l 2))
  | "-=" => return .memArith .sub base off (← operand (← item l 2))
  | _ => fault src at_ (.unexpectedOperator op)

def memUpdate (src : Source) (offset : Nat) (cell : Tree) (at_ : Nat) (op : String)
    (l : List Tree) : Checked Instr := do
  let (base, off) ← mem src cell
  if l.length ≠ 3 then fault src offset .memDestination
  else writeMem src base off at_ op l

def arith (src : Source) (offset : Nat) (op : Op) (dst : Operand) (l : List Tree) :
    Checked Instr :=
  if l.length ≠ 3 then fault src offset (.malformed op.symbol)
  else do
    let x ← item l 2
    if x.text?.isSome then return .arith op dst (← operand x)
    else do
      let (base, off) ← mem src x
      return .arithLoad op dst base off

def shift (src : Source) (offset : Nat) (op : Op) (dst : Operand) (l : List Tree) :
    Checked Instr :=
  if l.length ≠ 3 then fault src offset (.malformed op.symbol)
  else return .shift op dst (← operand (← item l 2))

def move (src : Source) (offset : Nat) (dst : Operand) (l : List Tree) : Checked Instr :=
  if l.length = 3 then do
    let x ← item l 2
    if x.text?.isSome then return .mov dst (← operand x) else moveFrom src dst x
  else if l.length = 5 then do
    let c ← cond src (← item l 3)
    return .cmp dst c (← operand (← item l 2)) (← operand (← item l 4))
  else fault src offset (.malformed "<-")

def lea (src : Source) (offset : Nat) (dst : Operand) (l : List Tree) : Checked Instr :=
  if l.length ≠ 5 then fault src offset .lea
  else do
    let scale ← number src (← item l 4)
    return .lea dst (← operand (← item l 2)) (← operand (← item l 3)) scale

def update (src : Source) (offset : Nat) (dst : Operand) (at_ : Nat) (op : String)
    (l : List Tree) : Checked Instr :=
  match op with
  | "++" => if l.length ≠ 2 then fault src offset (.takesNoOperands op) else pure (.inc dst)
  | "--" => if l.length ≠ 2 then fault src offset (.takesNoOperands op) else pure (.dec dst)
  | "<-" => move src offset dst l
  | "@" => lea src offset dst l
  | "<<=" => shift src offset .shl dst l
  | ">>=" => shift src offset .shr dst l
  | "+=" => arith src offset .add dst l
  | "-=" => arith src offset .sub dst l
  | "*=" => arith src offset .mul dst l
  | "&=" => arith src offset .and dst l
  | _ => fault src at_ (.unexpectedOperator op)

/-- An instruction that starts with no keyword, from all of its items. -/
def operation (src : Source) (offset : Nat) (l : List Tree) : Checked Instr :=
  if l.length < 2 then fault src offset .instr
  else do
    match ← item l 1 with
    | .list .. => fault src offset .instr
    | .atom at_ op => do
      let head ← item l 0
      if head.text?.isSome then update src offset (← operand head) at_ op l
      else memUpdate src offset head at_ op l

def goto (src : Source) (offset : Nat) (l : List Tree) : Checked Instr :=
  if l.length ≠ 2 then fault src offset .goto
  else return .goto (← label src (← item l 1))

def cjump (src : Source) (offset : Nat) (l : List Tree) : Checked Instr :=
  if l.length ≠ 6 then fault src offset .cjump
  else do
    let c ← cond src (← item l 2)
    let yes ← label src (← item l 4)
    let no ← label src (← item l 5)
    return .cjump c (← operand (← item l 1)) (← operand (← item l 3)) yes no

def call (src : Source) (offset : Nat) (l : List Tree) : Checked Instr :=
  if l.length ≠ 3 then fault src offset .call
  else do
    let n ← number src (← item l 2)
    return .call (← callee (← item l 1)) n

/-- An instruction in parentheses, from all of its items. -/
def form (src : Source) (offset : Nat) (l : List Tree) : Checked Instr :=
  if l.length = 0 then fault src offset .emptyInstr
  else do
    match (← item l 0).text? with
    | some "return" => if l.length ≠ 1 then fault src offset .returnOperands else pure .ret
    | some "goto" => goto src offset l
    | some "cjump" => cjump src offset l
    | some "call" => call src offset l
    | _ => operation src offset l

def instr (src : Source) : Tree → Checked Instr
  | .list offset l => form src offset l
  | t => do return .label (← (label src t).within .instruction)

def func (src : Source) (t : Tree) : Checked Func :=
  if t.parts.length < 3 then fault src t.offset .function
  else do
    let name ← (label src (← item t.parts 0)).within .functionName
    let args ← (number src (← item t.parts 1)).within (.arguments name)
    let locals ← (number src (← item t.parts 2)).within (.locals name)
    let rest ← slice t.parts 3 t.parts.length
    let code ← rest.mapM fun i => (instr src i).within (.function name)
    return { name, args, locals, code }

def program (src : Source) (t : Tree) : Checked Program :=
  if t.parts.length < 2 then fault src t.offset .program
  else do
    let entry ← (label src (← item t.parts 0)).within .entry
    let rest ← slice t.parts 1 t.parts.length
    let funcs ← rest.mapM (func src)
    return { entry, funcs }

/-- Read a program in at most so many nested calls. -/
def parseProgram (depth : Nat) (name : String) (text : Bytes) : Checked Program := do
  let src : Source := ⟨name, text⟩
  program src (← whole src depth .afterProgram)

/-- Read a function in at most so many nested calls. -/
def parseFunc (depth : Nat) (text : Bytes) : Checked Func := do
  let src : Source := ⟨"func", text⟩
  func src (← whole src depth .afterFunction)

end Indexed

/-! ## Reports -/

/-- The error is the report of a fault at a place of the text. -/
def Source.Reports (src : Source) (e : Error) : Prop :=
  ∃ contexts offset fault, offset ≤ src.text.length ∧
    e = .report contexts (.badSyntax src.name (Position.ofOffset src.text offset) fault)

namespace Indexed

variable {src : Source} {α β : Type} {x : Checked α} {y : Except Error α}

/-- A checked computation does not go astray and has the result of another one; an error is the
report of a fault of the text. -/
structure Agrees (src : Source) (x : Checked α) (y : Except Error α) : Prop where
  eq : x = done y
  reports : ∀ e, y = .error e → src.Reports e

namespace Agrees

theorem ok (a : α) : Agrees src (pure a) (.ok a) :=
  ⟨rfl, fun _ h => nomatch h⟩

theorem fault {o : Nat} (ho : o ≤ src.text.length) (f : SyntaxFault) :
    Agrees src (Indexed.fault (α := α) src o f) (.error (src.fault o f)) := by
  refine ⟨fault_eq ho f, ?_⟩
  rintro _ ⟨⟩
  exact ⟨[], o, f, ho, rfl⟩

theorem bind {f : α → Checked β} {g : α → Except Error β} (hx : Agrees src x y)
    (hf : ∀ a, Agrees src (f a) (g a)) : Agrees src (x >>= f) (y >>= g) := by
  obtain ⟨rfl, hreports⟩ := hx
  cases y with
  | ok a => exact hf a
  | error e =>
      refine ⟨rfl, ?_⟩
      rintro _ ⟨⟩
      exact hreports e rfl

theorem within (c : Context) (hx : Agrees src x y) : Agrees src (x.within c) (inContext c y) := by
  obtain ⟨rfl, hreports⟩ := hx
  refine ⟨rfl, ?_⟩
  intro e he
  obtain ⟨e, hy, rfl⟩ := inContext_eq_error.mp he
  obtain ⟨contexts, o, f, ho, rfl⟩ := hreports e hy
  exact ⟨c :: contexts, o, f, ho, rfl⟩

theorem mapM {f : Tree → Checked α} {g : Tree → Except Error α} {ts : List Tree}
    (h : ∀ t ∈ ts, Agrees src (f t) (g t)) : Agrees src (ts.mapM f) (ts.mapM g) := by
  induction ts with
  | nil => exact .ok []
  | cons t ts ih =>
      rw [List.forall_mem_cons] at h
      rw [List.mapM_cons, List.mapM_cons]
      exact h.1.bind fun a => (ih h.2).bind fun as => .ok (a :: as)

end Agrees

/-! ## Trees of a text -/

variable {t : Tree} {n : Nat}

theorem offset_le (ht : t.Placed n) : t.offset ≤ n := by
  cases ht with
  | atom ho _ => exact ho
  | list ho _ => exact ho

theorem placed_parts (ht : t.Placed n) : ∀ s ∈ t.parts, s.Placed n := by
  cases ht with
  | atom _ _ => exact fun _ hs => nomatch hs
  | list _ hitems => exact hitems

/-- An atom of a text has a first character. -/
theorem operand_eq (ht : t.Placed n) : operand t = pure t.operand := by
  cases ht with
  | list _ _ => rfl
  | @atom _ word _ hword =>
      obtain ⟨c, name, hchars⟩ := List.exists_cons_of_ne_nil hword
      rw [operand, Tree.operand]
      cases Reg.ofName? word with
      | some r => rfl
      | none =>
          simp only [hchars]
          rw [show item (c :: name) 0 = pure c from rfl, pure_bind]
          by_cases hc : c = ':'
          · subst hc
            rw [if_pos rfl, slice_eq (by simp) (Nat.le_refl _), pure_bind, List.take_length]
            rfl
          · rw [if_neg hc]
            cases Decimal.readInt64? word <;> simp [hc]

theorem callee_eq (ht : t.Placed n) : callee t = pure t.callee := by
  rw [callee, operand_eq ht, pure_bind, Tree.callee]
  cases t.text? with
  | none => rfl
  | some name =>
      by_cases hname : name ∈ runtimeNames
      · simp only [if_pos hname]
      · simp only [if_neg hname]

theorem agrees_label (ht : t.Placed src.text.length) :
    Agrees src (label src t) (src.label t) := by
  cases ht with
  | list ho _ => exact .fault ho _
  | @atom _ word ho hword =>
      obtain ⟨c, rest, hchars⟩ := List.exists_cons_of_ne_nil hword
      rw [label, Source.label, Tree.chars, Tree.text?, Option.getD_some, Option.map_some, hchars]
      by_cases hc : c = ':'
      · subst hc
        cases rest with
        | nil => exact .fault ho _
        | cons d name =>
            rw [if_neg (by simp), show item (':' :: d :: name) 0 = pure ':' from rfl, pure_bind,
              if_neg (by simp), slice_eq (by simp) (Nat.le_refl _), pure_bind, List.take_length]
            exact .ok _
      · -- too short or not, it starts with no colon
        rw [show item (c :: rest) 0 = pure c from rfl, pure_bind, if_pos hc, ite_self]
        split
        · rename_i heq
          exact absurd (List.cons.inj (Option.some.inj heq)).1 hc
        · exact .fault ho _

theorem agrees_number (ht : t.Placed src.text.length) :
    Agrees src (number src t) (src.number t) := by
  cases ht with
  | list ho _ => exact .fault ho _
  | @atom _ word ho _ =>
      rw [number, Source.number]
      cases Decimal.readInt64? word with
      | some n => exact .ok n
      | none => exact .fault ho _

theorem agrees_cond (ht : t.Placed src.text.length) : Agrees src (cond src t) (src.cond t) := by
  rw [cond, Source.cond]
  cases t.text?.map Cond.ofSymbol with
  | none => exact .fault (offset_le ht) _
  | some c =>
      cases c with
      | lt => exact .ok _
      | le => exact .ok _
      | eq => exact .ok _
      | unknown s => exact .fault (offset_le ht) _

theorem eq_atom_of_text? {word : String} (h : t.text? = some word) : ∃ o, t = .atom o word := by
  cases t with
  | atom o word =>
      cases h
      exact ⟨o, rfl⟩
  | list => cases h

theorem isForm_cases (t : Tree) (word : String) (n : Nat) :
    (∃ o a args, t = .list o (.atom a word :: args) ∧ args.length = n ∧
        isForm t word (n + 1) = pure true) ∨
      (∀ o a args, t = .list o (.atom a word :: args) → args.length ≠ n) ∧
        isForm t word (n + 1) = pure false := by
  rw [isForm]
  by_cases hlen : t.parts.length = n + 1
  · rw [if_neg (not_not.mpr hlen)]
    obtain ⟨o, items, rfl⟩ : ∃ o items, t = .list o items := by
      cases t with
      | atom => cases hlen
      | list o items => exact ⟨o, items, rfl⟩
    obtain ⟨head, args, rfl⟩ := List.exists_cons_of_length_eq_add_one hlen
    have hargs : args.length = n := Nat.succ.inj hlen
    rw [show item (Tree.list o (head :: args)).parts 0 = pure head from rfl, pure_bind, pure_inj,
      pure_inj]
    by_cases hhead : head.text? = some word
    · obtain ⟨a, rfl⟩ := eq_atom_of_text? hhead
      exact .inl ⟨o, a, args, rfl, hargs, by simpa using hhead⟩
    · refine .inr ⟨?_, by simpa using hhead⟩
      rintro _ a _ ⟨⟩
      exact absurd rfl hhead
  · rw [if_pos hlen]
    refine .inr ⟨?_, rfl⟩
    rintro o a args rfl hargs
    exact hlen (congrArg Nat.succ hargs)

theorem agrees_mem (ht : t.Placed src.text.length) : Agrees src (mem src t) (src.mem t) := by
  rw [mem]
  rcases isForm_cases t "mem" 2 with ⟨o, a, args, rfl, hargs, hform⟩ | ⟨hother, hform⟩
  · obtain ⟨base, off, rfl⟩ := List.length_eq_two.mp hargs
    have hbase : base.Placed src.text.length := placed_parts ht _ (by simp [Tree.parts])
    have hoff : off.Placed src.text.length := placed_parts ht _ (by simp [Tree.parts])
    rw [hform, pure_bind, if_pos rfl]
    show Agrees src (number src off >>= fun n => operand base >>= fun x => pure (x, n))
      (src.number off >>= fun n => .ok (base.operand, n))
    rw [operand_eq hbase]
    exact (agrees_number hoff).bind fun n => .ok _
  · rw [hform, pure_bind, if_neg (by simp), Source.mem]
    · exact .fault (offset_le ht) _
    · intro o a base off h
      exact hother o a [base, off] h rfl

theorem agrees_moveFrom (dst : Operand) (ht : t.Placed src.text.length) :
    Agrees src (moveFrom src dst t) (src.moveFrom dst t) := by
  rw [moveFrom]
  rcases isForm_cases t "stack-arg" 1 with ⟨o, a, args, rfl, hargs, hform⟩ | ⟨hother, hform⟩
  · obtain ⟨off, rfl⟩ := List.length_eq_one_iff.mp hargs
    have hoff : off.Placed src.text.length := placed_parts ht _ (by simp [Tree.parts])
    rw [hform, pure_bind, if_pos rfl]
    exact (agrees_number hoff).bind fun n => .ok _
  · rw [hform, pure_bind, if_neg (by simp), Source.moveFrom]
    · refine (agrees_mem ht).bind ?_
      rintro ⟨base, off⟩
      exact .ok _
    · intro o a off h
      exact hother o a [off] h rfl

variable {offset at_ : Nat} {op : String} {first second : Tree} {args : List Tree}

theorem agrees_memUpdate {cell : Tree} (ho : offset ≤ src.text.length) (hat : at_ ≤ src.text.length)
    (hcell : cell.Placed src.text.length) (hargs : ∀ t ∈ args, t.Placed src.text.length) :
    Agrees src (memUpdate src offset cell at_ op (first :: second :: args))
      (src.memUpdate offset cell at_ op args) := by
  rw [memUpdate, Source.memUpdate]
  refine (agrees_mem hcell).bind ?_
  rintro ⟨base, off⟩
  rcases args with _ | ⟨x, _ | ⟨y, args⟩⟩
  · exact .fault ho _
  · have hx := operand_eq (hargs x (by simp))
    have hitem : item [first, second, x] 2 = pure x := rfl
    dsimp only
    rw [if_neg (by simp)]
    split
    · rw [writeMem, hitem, pure_bind, hx]
      exact .ok _
    · rw [writeMem, hitem, pure_bind, hx]
      exact .ok _
    · rw [writeMem, hitem, pure_bind, hx]
      exact .ok _
    · rw [writeMem]
      · exact .fault hat _
      all_goals assumption
  · dsimp only
    rw [if_pos (by simp)]
    exact .fault ho _

theorem agrees_arith {op : Op} (dst : Operand) (ho : offset ≤ src.text.length)
    (hargs : ∀ t ∈ args, t.Placed src.text.length) :
    Agrees src (arith src offset op dst (first :: second :: args))
      (src.arith offset op dst args) := by
  rw [arith]
  rcases args with _ | ⟨x, _ | ⟨y, args⟩⟩
  · exact .fault ho _
  · rw [if_neg (by simp), show item [first, second, x] 2 = pure x from rfl, pure_bind]
    have hx := hargs x (by simp)
    cases x with
    | atom o word =>
        rw [operand_eq hx]
        exact .ok _
    | list o items =>
        refine (agrees_mem hx).bind ?_
        rintro ⟨base, off⟩
        exact .ok _
  · rw [if_pos (by simp), Source.arith]
    · exact .fault ho _
    · simp
    · simp

theorem agrees_shift {op : Op} (dst : Operand) (ho : offset ≤ src.text.length)
    (hargs : ∀ t ∈ args, t.Placed src.text.length) :
    Agrees src (shift src offset op dst (first :: second :: args))
      (src.shift offset op dst args) := by
  rw [shift]
  rcases args with _ | ⟨x, _ | ⟨y, args⟩⟩
  · exact .fault ho _
  · rw [if_neg (by simp), show item [first, second, x] 2 = pure x from rfl, pure_bind,
      operand_eq (hargs x (by simp))]
    exact .ok _
  · rw [if_pos (by simp)]
    exact .fault ho _

theorem agrees_move (dst : Operand) (ho : offset ≤ src.text.length)
    (hargs : ∀ t ∈ args, t.Placed src.text.length) :
    Agrees src (move src offset dst (first :: second :: args))
      (src.update offset dst at_ "<-" args) := by
  rw [move]
  rcases args with _ | ⟨x, _ | ⟨y, _ | ⟨z, _ | ⟨w, args⟩⟩⟩⟩
  · exact .fault ho _
  · have hx := hargs x (by simp)
    rw [if_pos (by simp), show item [first, second, x] 2 = pure x from rfl, pure_bind]
    cases x with
    | atom o word =>
        rw [operand_eq hx]
        exact .ok _
    | list o items => exact agrees_moveFrom dst hx
  · rw [if_neg (by simp), if_neg (by simp), Source.update]
    · exact .fault ho _
    all_goals simp
  · rw [if_neg (by simp), if_pos (by simp), Source.update]
    show Agrees src
      (cond src y >>= fun c => operand x >>= fun l => operand z >>= fun r =>
        pure (Instr.cmp dst c l r))
      (src.cond y >>= fun c => .ok (Instr.cmp dst c x.operand z.operand))
    rw [operand_eq (hargs x (by simp)), operand_eq (hargs z (by simp))]
    exact (agrees_cond (hargs y (by simp))).bind fun c => .ok _
  · rw [if_neg (by simp), if_neg (by simp), Source.update]
    · exact .fault ho _
    all_goals simp

theorem agrees_lea (dst : Operand) (ho : offset ≤ src.text.length)
    (hargs : ∀ t ∈ args, t.Placed src.text.length) :
    Agrees src (lea src offset dst (first :: second :: args))
      (src.update offset dst at_ "@" args) := by
  rw [lea]
  rcases args with _ | ⟨x, _ | ⟨y, _ | ⟨z, _ | ⟨w, args⟩⟩⟩⟩
  · exact .fault ho _
  · exact .fault ho _
  · exact .fault ho _
  · rw [if_neg (by simp)]
    show Agrees src
      (number src z >>= fun n => operand x >>= fun b => operand y >>= fun i =>
        pure (Instr.lea dst b i n))
      (src.number z >>= fun n => .ok (Instr.lea dst x.operand y.operand n))
    rw [operand_eq (hargs x (by simp)), operand_eq (hargs y (by simp))]
    exact (agrees_number (hargs z (by simp))).bind fun n => .ok _
  · rw [if_pos (by simp)]
    exact .fault ho _

theorem agrees_update (dst : Operand) (ho : offset ≤ src.text.length)
    (hat : at_ ≤ src.text.length) (hargs : ∀ t ∈ args, t.Placed src.text.length) :
    Agrees src (update src offset dst at_ op (first :: second :: args))
      (src.update offset dst at_ op args) := by
  have hnone : ∀ {f : SyntaxFault} {i : Instr},
      Agrees src (if (first :: second :: args).length ≠ 2 then fault src offset f else pure i)
        (if args.isEmpty then .ok i else .error (src.fault offset f)) := by
    intro f i
    cases args with
    | nil => exact .ok i
    | cons x args =>
        rw [if_pos (by simp), if_neg (by simp)]
        exact .fault ho f
  rw [update.eq_def]
  split
  · exact hnone
  · exact hnone
  · exact agrees_move dst ho hargs
  · exact agrees_lea dst ho hargs
  · exact agrees_shift dst ho hargs
  · exact agrees_shift dst ho hargs
  · exact agrees_arith dst ho hargs
  · exact agrees_arith dst ho hargs
  · exact agrees_arith dst ho hargs
  · exact agrees_arith dst ho hargs
  · rw [Source.update]
    · exact .fault hat _
    all_goals assumption

theorem agrees_operation {head : Tree} {items : List Tree} (ho : offset ≤ src.text.length)
    (hhead : head.Placed src.text.length) (hitems : ∀ t ∈ items, t.Placed src.text.length) :
    Agrees src (operation src offset (head :: items)) (src.operation offset head items) := by
  rw [operation]
  rcases items with _ | ⟨second, args⟩
  · exact .fault ho _
  · rw [List.forall_mem_cons] at hitems
    have hat := offset_le hitems.1
    rw [if_neg (by simp), show item (head :: second :: args) 1 = pure second from rfl, pure_bind]
    cases second with
    | list o l => exact .fault ho _
    | atom at_ op =>
        dsimp only
        rw [show item (head :: .atom at_ op :: args) 0 = pure head from rfl, pure_bind]
        cases head with
        | list o l => exact agrees_memUpdate ho hat hhead hitems.2
        | atom o word =>
            rw [operand_eq hhead]
            exact agrees_update _ ho hat hitems.2

variable {head : Tree} {items : List Tree}

theorem agrees_goto (hhead : head.text? = some "goto") (ho : offset ≤ src.text.length)
    (hitems : ∀ t ∈ items, t.Placed src.text.length) :
    Agrees src (goto src offset (head :: items)) (src.form offset head items) := by
  simp only [goto, Source.form, hhead]
  rcases items with _ | ⟨x, _ | ⟨y, items⟩⟩
  · exact .fault ho _
  · exact (agrees_label (hitems x (by simp))).bind fun l => .ok _
  · exact .fault ho _

theorem agrees_cjump (hhead : head.text? = some "cjump") (ho : offset ≤ src.text.length)
    (hitems : ∀ t ∈ items, t.Placed src.text.length) :
    Agrees src (cjump src offset (head :: items)) (src.form offset head items) := by
  simp only [cjump, Source.form, hhead]
  rcases items with _ | ⟨x, _ | ⟨y, _ | ⟨z, _ | ⟨yes, _ | ⟨no, _ | ⟨w, items⟩⟩⟩⟩⟩⟩
  · exact .fault ho _
  · exact .fault ho _
  · exact .fault ho _
  · exact .fault ho _
  · exact .fault ho _
  · rw [if_neg (by simp)]
    show Agrees src
      (cond src y >>= fun c => label src yes >>= fun l => label src no >>= fun l' =>
        operand x >>= fun a => operand z >>= fun b => pure (Instr.cjump c a b l l'))
      (src.cond y >>= fun c => src.label yes >>= fun l => src.label no >>= fun l' =>
        .ok (Instr.cjump c x.operand z.operand l l'))
    rw [operand_eq (hitems x (by simp)), operand_eq (hitems z (by simp))]
    exact (agrees_cond (hitems y (by simp))).bind fun c =>
      (agrees_label (hitems yes (by simp))).bind fun l =>
        (agrees_label (hitems no (by simp))).bind fun l' => .ok _
  · rw [if_pos (by simp)]
    exact .fault ho _

theorem agrees_call (hhead : head.text? = some "call") (ho : offset ≤ src.text.length)
    (hitems : ∀ t ∈ items, t.Placed src.text.length) :
    Agrees src (call src offset (head :: items)) (src.form offset head items) := by
  simp only [call, Source.form, hhead]
  rcases items with _ | ⟨x, _ | ⟨y, _ | ⟨w, items⟩⟩⟩
  · exact .fault ho _
  · exact .fault ho _
  · rw [if_neg (by simp)]
    show Agrees src (number src y >>= fun n => callee x >>= fun u => pure (Instr.call u n))
      (src.number y >>= fun n => .ok (Instr.call x.callee n))
    rw [callee_eq (hitems x (by simp))]
    exact (agrees_number (hitems y (by simp))).bind fun n => .ok _
  · rw [if_pos (by simp)]
    exact .fault ho _

theorem agrees_form (ho : offset ≤ src.text.length) (hhead : head.Placed src.text.length)
    (hitems : ∀ t ∈ items, t.Placed src.text.length) :
    Agrees src (form src offset (head :: items)) (src.form offset head items) := by
  rw [form, if_neg (by simp), show item (head :: items) 0 = pure head from rfl, pure_bind]
  split
  · rename_i hreturn
    simp only [Source.form, hreturn]
    cases items with
    | nil => exact .ok _
    | cons x items =>
        rw [if_pos (by simp), if_neg (by simp)]
        exact .fault ho _
  · rename_i hgoto
    exact agrees_goto hgoto ho hitems
  · rename_i hcjump
    exact agrees_cjump hcjump ho hitems
  · rename_i hcall
    exact agrees_call hcall ho hitems
  · unfold Source.form
    split
    · contradiction
    · contradiction
    · contradiction
    · contradiction
    · exact agrees_operation ho hhead hitems

theorem agrees_instr (ht : t.Placed src.text.length) : Agrees src (instr src t) (src.instr t) := by
  cases ht with
  | atom ho hword => exact ((agrees_label (.atom ho hword)).within .instruction).bind fun l => .ok _
  | @list o items ho hitems =>
      cases items with
      | nil => exact .fault ho _
      | cons head items =>
          rw [List.forall_mem_cons] at hitems
          exact agrees_form ho hitems.1 hitems.2

theorem agrees_func (ht : t.Placed src.text.length) : Agrees src (func src t) (src.func t) := by
  rw [func]
  cases ht with
  | atom ho hword => exact .fault ho _
  | @list o items ho hitems =>
      rcases items with _ | ⟨x, _ | ⟨y, _ | ⟨z, code⟩⟩⟩
      · exact .fault ho _
      · exact .fault ho _
      · exact .fault ho _
      · have hrest : slice (x :: y :: z :: code) 3 (x :: y :: z :: code).length = pure code := by
          rw [slice_eq (by simp) (Nat.le_refl _), List.take_length]
          rfl
        simp only [List.forall_mem_cons] at hitems
        obtain ⟨hx, hy, hz, hcode⟩ := hitems
        rw [Tree.parts, if_neg (by simp), hrest]
        refine ((agrees_label hx).within _).bind fun name => ?_
        refine ((agrees_number hy).within _).bind fun args => ?_
        refine ((agrees_number hz).within _).bind fun locals => ?_
        have hmap := Agrees.mapM fun i hi => (agrees_instr (hcode i hi)).within (.function name)
        exact hmap.bind fun code => .ok _

theorem agrees_program (ht : t.Placed src.text.length) :
    Agrees src (program src t) (src.program t) := by
  rw [program]
  cases ht with
  | atom ho hword => exact .fault ho _
  | @list o items ho hitems =>
      rcases items with _ | ⟨x, _ | ⟨y, funcs⟩⟩
      · exact .fault ho _
      · exact .fault ho _
      · have hrest : slice (x :: y :: funcs) 1 (x :: y :: funcs).length = pure (y :: funcs) := by
          rw [slice_eq (by simp) (Nat.le_refl _), List.take_length]
          rfl
        rw [List.forall_mem_cons] at hitems
        rw [Tree.parts, if_neg (by simp), hrest]
        refine ((agrees_label hitems.1).within _).bind fun entry => ?_
        exact (Agrees.mapM fun f hf => agrees_func (hitems.2 f hf)).bind fun funcs => .ok _

/-- The only tree of a text and what is read from it. -/
theorem agrees_whole {f : Tree → Checked α} {g : Tree → Except Error α} {depth : Nat}
    (hdepth : 2 * src.text.length + 1 ≤ depth) (extra : SyntaxFault)
    (h : ∀ t, t.Placed src.text.length → Agrees src (f t) (g t)) :
    Agrees src (whole src depth extra >>= f) (src.tree extra >>= g) := by
  rcases whole_cases hdepth extra with ⟨t, ht, hwhole, htree⟩ | ⟨o, fault, ho, hwhole, htree⟩
  · rw [hwhole, htree]
    exact h t ht
  · rw [hwhole, htree, done_error_bind]
    refine ⟨rfl, ?_⟩
    rintro _ ⟨⟩
    exact ⟨[], o, fault, ho, rfl⟩

end Indexed

end Spillway
