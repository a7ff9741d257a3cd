import Spillway.Proofs.Code.Vars
import Spillway.Proofs.Code.WellFormed
import Spillway.Proofs.Liveness.Paths
import Spillway.Proofs.Results
import Spillway.Proofs.Source.Offsets
import Spillway.Proofs.Source.Operands

/-!
# Reading the trees of programs

`Instr.tree`, `Func.tree` and `Program.tree` are the trees that the written forms stand for. A tree
that agrees with them up to offsets is read as the instruction, function or program, if this is
readable (`Source.instr_tree`, `Source.func_tree`, `Source.program_tree`).
-/

namespace Spillway

namespace Tree

/-- A word, at no place in particular. -/
abbrev word (t : String) : Tree := .atom 0 t

/-- A list of trees, at no place in particular. -/
abbrev group (ts : List Tree) : Tree := .list 0 ts

/-- The tree of a memory cell. -/
def cell (base : Operand) (off : Int64) : Tree :=
  group [word "mem", word base.text, word (Decimal.text64 off)]

end Tree

open Spillway.Tree in
/-- The tree of an instruction. -/
def Instr.tree : Instr → Tree
  | mov dst src => group [word dst.text, word "<-", word src.text]
  | load dst base off => group [word dst.text, word "<-", cell base off]
  | stackArg dst off =>
    group [word dst.text, word "<-", group [word "stack-arg", word (Decimal.text64 off)]]
  | store base off src => group [cell base off, word "<-", word src.text]
  | cmp dst c l r =>
    group [word dst.text, word "<-", word l.text, word c.symbol, word r.text]
  | arith op dst src => group [word dst.text, word op.symbol, word src.text]
  | arithLoad op dst base off => group [word dst.text, word op.symbol, cell base off]
  | memArith op base off src => group [cell base off, word op.symbol, word src.text]
  | shift op dst src => group [word dst.text, word op.symbol, word src.text]
  | lea dst base index scale =>
    group [word dst.text, word "@", word base.text, word index.text, word (Decimal.text64 scale)]
  | inc dst => group [word dst.text, word "++"]
  | dec dst => group [word dst.text, word "--"]
  | cjump c l r yes no =>
    group [word "cjump", word l.text, word c.symbol, word r.text, word yes.text, word no.text]
  | goto l => group [word "goto", word l.text]
  | label l => word l.text
  | ret => group [word "return"]
  | call callee args => group [word "call", word callee.text, word (Decimal.text64 args)]
  | hole => word "<nil>"

open Spillway.Tree in
/-- The tree of a function. -/
def Func.tree (f : Func) : Tree :=
  group (word f.name.text :: word (Decimal.text64 f.args) :: word (Decimal.text64 f.locals) ::
    f.code.map Instr.tree)

open Spillway.Tree in
/-- The tree of a program. -/
def Program.tree (p : Program) : Tree := group (word p.entry.text :: p.funcs.map Func.tree)

/-! ## Readable code -/

/-- The words that decide how an instruction is read when they stand first. -/
def keywords : List String := ["return", "goto", "cjump", "call"]

/-- The instruction can be written and read. -/
structure Instr.Readable (i : Instr) : Prop where
  wellFormed : i.WellFormed
  slots : ∀ x ∈ i.slots, x.Readable
  labels : ∀ l, l ∈ i.targets ∨ i.label? = some l → l.Readable
  dest : ∀ v, i.dest? = some (.var v) → v.name ∉ keywords
  callee : ∀ v n, i = .call (.var v) n → v.name ∉ runtimeNames
  /-- A decrement is written without a blank, and `<--` starts with an arrow. -/
  glued : i ≠ .dec (.var ⟨"<"⟩)

/-- The function can be written and read. -/
structure Func.Readable (f : Func) : Prop where
  name : f.name.Readable
  named : f.name.name ≠ ""
  code : ∀ i ∈ f.code, i.Readable

/-- The program can be written and read. -/
structure Program.Readable (p : Program) : Prop where
  entry : p.entry.Readable
  named : p.entry.name ≠ ""
  nonempty : p.funcs ≠ []
  funcs : ∀ f ∈ p.funcs, f.Readable

/-! ## Operands by their place -/

namespace Operand

variable {x : Operand} {name : String}

theorem Writable.ne_runtime (h : x.Writable) : x ≠ .runtime name := by
  rintro rfl
  exact h

theorem Base.ne_runtime (h : x.Base) : x ≠ .runtime name := by
  rintro rfl
  rcases h with h | h
  · cases h
  · exact h

theorem Value.ne_runtime (h : x.Value) : x ≠ .runtime name := by
  rintro rfl
  rcases h with ⟨_, h⟩ | h
  · cases h
  · exact h.ne_runtime rfl

theorem Source.ne_runtime (h : x.Source) : x ≠ .runtime name := by
  rintro rfl
  rcases h with ⟨_, h, _⟩ | h
  · cases h
  · exact h.ne_runtime rfl

theorem ShiftCount.ne_runtime (h : x.ShiftCount) : x ≠ .runtime name := by
  rintro rfl
  exact h

/-- What can be written starts an instruction, unless it is a variable called like a keyword. -/
theorem Writable.text_not_mem_keywords (h : x.Writable)
    (hvar : ∀ v, x = .var v → v.name ∉ keywords) : x.text ∉ keywords := by
  cases x with
  | var v => exact hvar v rfl
  | reg r => exact Reg.forall_machine (P := fun r => r.text ∉ keywords) (by decide) h.2
  | num | label | runtime | hole => cases h

end Operand

/-! ## Reading instructions -/

namespace Source

variable {src : Source} {base : Operand} {off : Int64}

theorem number_text (n : Int64) : src.number (.word (Decimal.text64 n)) = .ok n := by
  simp only [number, Decimal.readInt64?_text64]

theorem label_text {l : Label} (hl : l.name ≠ "") : src.label (.word l.text) = .ok l := by
  have hname : l.name.toList ≠ [] := by simpa using hl
  obtain ⟨c, cs, hc⟩ := List.exists_cons_of_ne_nil hname
  have htext : (Tree.word l.text).text?.map String.toList = some (':' :: c :: cs) := by
    rw [Tree.text?, Option.map_some, l.toList_text, hc]
  simp only [label, htext]
  rw [← hc, String.ofList_toList]

theorem cond_symbol {c : Cond} (hc : ∀ s, c ≠ .unknown s) : src.cond (.word c.symbol) = .ok c := by
  cases c with
  | unknown s => exact absurd rfl (hc s)
  | _ => rfl

theorem mem_cell (hbase : (Tree.word base.text).operand = base) :
    src.mem (.cell base off) = .ok (base, off) := by
  simp only [Tree.cell, mem, number_text, hbase]
  rfl

/-- An instruction that starts with no keyword is read by its operator. -/
theorem form_of_not_mem_keywords {t : String} (ht : t ∉ keywords) (o : Nat) (items : List Tree) :
    src.form o (.word t) items = src.operation o (.word t) items := by
  simp only [keywords, List.mem_cons, List.not_mem_nil, or_false, not_or] at ht
  unfold form
  split
  · rename_i h; cases h; exact absurd rfl ht.1
  · rename_i h; cases h; exact absurd rfl ht.2.1
  · rename_i h; cases h; exact absurd rfl ht.2.2.1
  · rename_i h; cases h; exact absurd rfl ht.2.2.2
  · rfl

/-- An instruction that changes an operand is read by its operator. -/
theorem instr_update {dst : Operand} (hdst : dst.text ∉ keywords)
    (hread : (Tree.word dst.text).operand = dst) (op : String) (args : List Tree) :
    src.instr (.group (.word dst.text :: .word op :: args)) = src.update 0 dst 0 op args := by
  show src.form 0 (.word dst.text) (.word op :: args) = _
  rw [form_of_not_mem_keywords hdst]
  show src.update 0 (Tree.word dst.text).operand 0 op args = _
  rw [hread]

theorem update_arith {op : Op} (hop : op ∈ [.add, .sub, .mul, .and]) (dst : Operand) (s : String) :
    src.update 0 dst 0 op.symbol [.word s] = .ok (.arith op dst (Tree.word s).operand) := by
  simp only [List.mem_cons, List.not_mem_nil, or_false] at hop
  rcases hop with rfl | rfl | rfl | rfl <;> rfl

theorem update_shift {op : Op} (hop : op ∈ [.shl, .shr]) (dst : Operand) (s : String) :
    src.update 0 dst 0 op.symbol [.word s] = .ok (.shift op dst (Tree.word s).operand) := by
  simp only [List.mem_cons, List.not_mem_nil, or_false] at hop
  rcases hop with rfl | rfl <;> rfl

theorem update_arithLoad {op : Op} (hop : op ∈ [.add, .sub]) (dst : Operand)
    (hbase : (Tree.word base.text).operand = base) :
    src.update 0 dst 0 op.symbol [.cell base off] = .ok (.arithLoad op dst base off) := by
  have hread : src.update 0 dst 0 op.symbol [.cell base off] =
      (src.mem (.cell base off) >>= fun p => .ok (.arithLoad op dst p.1 p.2)) := by
    simp only [List.mem_cons, List.not_mem_nil, or_false] at hop
    rcases hop with rfl | rfl <;> rfl
  rw [hread, mem_cell hbase]
  rfl

theorem instr_memArith {op : Op} (hop : op ∈ [.add, .sub]) {x : Operand}
    (hbase : (Tree.word base.text).operand = base) (hx : (Tree.word x.text).operand = x) :
    src.instr (Instr.memArith op base off x).tree = .ok (.memArith op base off x) := by
  have hread : src.instr (Instr.memArith op base off x).tree =
      (src.mem (.cell base off) >>= fun p =>
        .ok (.memArith op p.1 p.2 (Tree.word x.text).operand)) := by
    simp only [List.mem_cons, List.not_mem_nil, or_false] at hop
    rcases hop with rfl | rfl <;> rfl
  rw [hread, mem_cell hbase, hx]
  rfl

/-- The tree of an instruction is read as the instruction. -/
theorem instr_tree {i : Instr} (h : i.Readable) : src.instr i.tree = .ok i := by
  have hread : ∀ x ∈ i.slots, (∀ name, x ≠ .runtime name) → (Tree.word x.text).operand = x :=
    fun x hx hne => Tree.operand_text (h.slots x hx) hne 0
  -- an instruction with a destination starts with it, and it is no keyword
  have hdest : ∀ dst, i.dest? = some dst → dst.Writable →
      ∀ op args, src.instr (.group (.word dst.text :: .word op :: args)) =
        src.update 0 dst 0 op args := by
    intro dst hd hw
    refine instr_update ?_ (hread dst (Instr.mem_slots_of_dest? hd) fun _ => hw.ne_runtime)
    exact hw.text_not_mem_keywords fun v hv => h.dest v (hv ▸ hd)
  have hwf := h.wellFormed
  cases i with
  | mov dst s =>
      rw [Instr.tree, hdest dst rfl hwf.1]
      show Except.ok (Instr.mov dst (Tree.word s.text).operand) = _
      rw [hread s (by simp [Instr.slots]) fun _ => hwf.2.ne_runtime]
  | load dst base off =>
      have hbase := hread base (by simp [Instr.slots]) fun _ => hwf.2.ne_runtime
      rw [Instr.tree, hdest dst rfl hwf.1]
      show src.moveFrom dst (.cell base off) = _
      rw [moveFrom_eq_load _ (by simp [Tree.cell]), mem_cell hbase]
      rfl
  | stackArg dst off =>
      rw [Instr.tree, hdest dst rfl hwf]
      show (src.number (.word (Decimal.text64 off)) >>= fun n => .ok (Instr.stackArg dst n)) = _
      rw [number_text]
      rfl
  | store base off s =>
      have hbase := hread base (by simp [Instr.slots]) fun _ => hwf.1.ne_runtime
      show (src.mem (.cell base off) >>= fun p =>
        .ok (Instr.store p.1 p.2 (Tree.word s.text).operand)) = _
      rw [mem_cell hbase, hread s (by simp [Instr.slots]) fun _ => hwf.2.ne_runtime]
      rfl
  | cmp dst c l r =>
      rw [Instr.tree, hdest dst rfl hwf.2.1]
      show (src.cond (.word c.symbol) >>= fun c =>
        .ok (Instr.cmp dst c (Tree.word l.text).operand (Tree.word r.text).operand)) = _
      rw [cond_symbol hwf.1, hread l (by simp [Instr.slots]) fun _ => hwf.2.2.1.ne_runtime,
        hread r (by simp [Instr.slots]) fun _ => hwf.2.2.2.ne_runtime]
      rfl
  | arith op dst s =>
      have hs := hread s (by simp [Instr.slots]) fun _ => hwf.2.2.ne_runtime
      rw [Instr.tree, hdest dst rfl hwf.2.1, update_arith hwf.1, hs]
  | arithLoad op dst base off =>
      have hbase := hread base (by simp [Instr.slots]) fun _ => hwf.2.2.ne_runtime
      rw [Instr.tree, hdest dst rfl hwf.2.1, update_arithLoad hwf.1 dst hbase]
  | memArith op base off s =>
      have hbase := hread base (by simp [Instr.slots]) fun _ => hwf.2.1.ne_runtime
      have hs := hread s (by simp [Instr.slots]) fun _ => hwf.2.2.ne_runtime
      exact instr_memArith hwf.1 hbase hs
  | shift op dst s =>
      have hs := hread s (by simp [Instr.slots]) fun _ => hwf.2.2.ne_runtime
      rw [Instr.tree, hdest dst rfl hwf.2.1, update_shift hwf.1, hs]
  | lea dst base index scale =>
      rw [Instr.tree, hdest dst rfl hwf.1]
      show (src.number (.word (Decimal.text64 scale)) >>= fun n =>
        .ok (Instr.lea dst (Tree.word base.text).operand (Tree.word index.text).operand n)) = _
      rw [number_text, hread base (by simp [Instr.slots]) fun _ => hwf.2.1.ne_runtime,
        hread index (by simp [Instr.slots]) fun _ => hwf.2.2.1.ne_runtime]
      rfl
  | inc dst => exact hdest dst rfl hwf "++" []
  | dec dst => exact hdest dst rfl hwf "--" []
  | cjump c l r yes no =>
      show (src.cond (.word c.symbol) >>= fun c => src.label (.word yes.text) >>= fun yes =>
        src.label (.word no.text) >>= fun no => .ok (Instr.cjump c (Tree.word l.text).operand
          (Tree.word r.text).operand yes no)) = _
      rw [cond_symbol hwf.1, hread l (by simp [Instr.slots]) fun _ => hwf.2.1.ne_runtime,
        hread r (by simp [Instr.slots]) fun _ => hwf.2.2.1.ne_runtime, label_text hwf.2.2.2.1,
        label_text hwf.2.2.2.2]
      rfl
  | goto l =>
      show (src.label (.word l.text) >>= fun l => .ok (Instr.goto l)) = _
      rw [label_text hwf]
      rfl
  | label l =>
      show (inContext .instruction (src.label (.word l.text)) >>= fun l => .ok (Instr.label l)) = _
      rw [label_text hwf]
      rfl
  | ret => rfl
  | call callee args =>
      have hcallee := Tree.callee_text (h.slots callee (by simp [Instr.slots]))
        (fun v hv => h.callee v args (by rw [hv])) 0
      show (src.number (.word (Decimal.text64 args)) >>= fun n =>
        .ok (Instr.call (Tree.word callee.text).callee n)) = _
      rw [number_text, hcallee]
      rfl
  | hole => cases hwf

/-! ## Reading programs -/

/-- Trees that are all read give the list of their results. -/
theorem mapM_tree {α : Type} {read : Tree → Except Error α} {tree : α → Tree} {xs : List α}
    (h : ∀ x ∈ xs, read (tree x) = .ok x) : (xs.map tree).mapM read = .ok xs := by
  rw [mapM_eq_ok, List.map_map]
  exact List.map_congr_left h

theorem func_tree {f : Func} (h : f.Readable) : src.func f.tree = .ok f := by
  have hcode : (f.code.map Instr.tree).mapM (fun t => inContext (.function f.name) (src.instr t)) =
      .ok f.code :=
    mapM_tree fun i hi => inContext_eq_ok.mpr (instr_tree (h.code i hi))
  simp only [Func.tree, func, label_text h.named, number_text, inContext_ok, ok_bind, hcode]
  rfl

theorem program_tree {p : Program} (h : p.Readable) : src.program p.tree = .ok p := by
  have hfuncs : (p.funcs.map Func.tree).mapM src.func = .ok p.funcs :=
    mapM_tree fun f hf => func_tree (h.funcs f hf)
  cases hp : p.funcs with
  | nil => exact absurd hp h.nonempty
  | cons f fs =>
      rw [hp, List.map_cons] at hfuncs
      simp only [Program.tree, hp, List.map_cons, program, label_text h.named, inContext_ok,
        ok_bind, hfuncs]
      rw [← hp]
      rfl

/-- So is the same tree at other offsets. -/
theorem program_of_erase {p : Program} (h : p.Readable) {t : Tree} (ht : t.erase = p.tree.erase) :
    src.program t = .ok p := by
  rw [← toOption_eq_some, ← program_erase src src, ht, program_erase src src, toOption_eq_some]
  exact program_tree h

end Source

end Spillway
