import Spillway.Proofs.Checked
import Spillway.Proofs.Source.Lexemes
import Spillway.Proofs.Source.Trees
import Spillway.Source.Reader

/-!
# Reading a text by index

A second reader of trees, which walks over the text by index and reads a tree inside of a tree by
calling itself (`Indexed.tree`). Every access to the text is checked, and so is the depth of the
calls: a reader that looks past the end of the text, or that goes on calling itself, goes astray
(`Checked.stray`).

It never does, on any text, and finds what cutting the text into tokens and building a tree from
them finds (`Indexed.delivers_tree`, `Indexed.whole_cases`): the same tree, or the same fault at the
same place, which is a place of the text.
-/

namespace Spillway

open Checked

namespace Indexed

/-! ## The reader -/

/-- The first index from `i` on that is neither blank nor in a comment. -/
def skip (text : Bytes) (comment : Bool) (i : Nat) : Checked Nat :=
  if i < text.length then do
    let b ← item text i
    if comment then skip text (b != '\n'.toUInt8) (i + 1)
    else if isBlankByte b then skip text false (i + 1)
    else if b == ';'.toUInt8 then skip text true (i + 1)
    else pure i
  else pure i
termination_by text.length - i

/-- The first index from `i` on that does not continue an identifier. A hyphen needs a look at the
byte after it. -/
def identEnd (text : Bytes) (i : Nat) : Checked Nat :=
  if i < text.length then do
    let b ← item text i
    if isIdentByte b then identEnd text (i + 1)
    else if b == '-'.toUInt8 && i + 1 < text.length then do
      let c ← item text (i + 1)
      if isLetterByte c then identEnd text (i + 1 + 1) else pure i
    else pure i
  else pure i
termination_by text.length - i

/-- The first index from `i` on that has no digit. -/
def digitsEnd (text : Bytes) (i : Nat) : Checked Nat :=
  if i < text.length then do
    let b ← item text i
    if isDigitByte b then digitsEnd text (i + 1) else pure i
  else pure i
termination_by text.length - i

/-- The end of the first of the operators that stands at an index; the index itself if none does. -/
def operatorEnd (text : Bytes) (i : Nat) : List Bytes → Checked Nat
  | [] => pure i
  | op :: ops =>
    if op.length ≤ text.length - i then do
      let found ← slice text i (i + op.length)
      if found == op then pure (i + op.length) else operatorEnd text i ops
    else operatorEnd text i ops

/-- The end of the atom that starts at an index; the index itself if none does. -/
def atomEnd (text : Bytes) (i : Nat) : Checked Nat := do
  let b ← item text i
  if b == ':'.toUInt8 || isIdentByte b then identEnd text (i + 1)
  else if (b == '-'.toUInt8 || b == '+'.toUInt8) && i + 1 < text.length then do
    let c ← item text (i + 1)
    if isDigitByte c then digitsEnd text (i + 1) else operatorEnd text i Token.operators
  else operatorEnd text i Token.operators

/-- The report of a fault, for which the text before it is counted. -/
def fault {α : Type} (src : Source) (offset : Nat) (f : SyntaxFault) : Checked α := do
  let before ← slice src.text 0 offset
  done (.error (.of (.badSyntax src.name (before.foldl Position.next .start) f)))

mutual

/-- The first tree from an index on, and the index after it, in at most so many nested calls. -/
def tree (src : Source) : Nat → Nat → Checked (Tree × Nat)
  | 0, _ => stray
  | depth + 1, start => do
    let i ← skip src.text false start
    if i = src.text.length then fault src i (.tree .endOfInput)
    else do
      let b ← item src.text i
      if b == ')'.toUInt8 then fault src i (.tree .strayClosing)
      else if b == '('.toUInt8 then items src depth i (i + 1) []
      else do
        let j ← atomEnd src.text i
        if j = i then fault src i (.tree (.unexpectedByte b))
        else do
          let word ← slice src.text i j
          return (.atom i (Bytes.toAscii word), j)

/-- The rest of a list that was opened at an index, after items that have been read. -/
def items (src : Source) : Nat → Nat → Nat → List Tree → Checked (Tree × Nat)
  | 0, _, _, _ => stray
  | depth + 1, offset, start, found => do
    let i ← skip src.text false start
    if i = src.text.length then fault src offset (.tree .unclosed)
    else do
      let b ← item src.text i
      if b == ')'.toUInt8 then return (.list offset found.reverse, i + 1)
      else do
        let (t, j) ← tree src depth i
        items src depth offset j (t :: found)

end

/-- The only tree of a text; `extra` is the fault of a text that goes on after it. -/
def whole (src : Source) (depth : Nat) (extra : SyntaxFault) : Checked Tree := do
  let (t, i) ← tree src depth 0
  let i ← skip src.text false i
  if i = src.text.length then return t else fault src i extra

/-! ## Indexes and what follows them -/

variable {text : Bytes} {i j k n : Nat} {b : UInt8}

theorem drop_eq_cons (hi : i < text.length) :
    ∃ b, text[i]? = some b ∧ text.drop i = b :: text.drop (i + 1) :=
  ⟨text[i], List.getElem?_eq_getElem hi, List.drop_eq_getElem_cons hi⟩

/-- Blanks and comments are skipped to where they end. -/
theorem skip_eq (comment : Bool) (hi : i ≤ text.length) :
    ∃ k, i ≤ k ∧ k ≤ text.length ∧ skip text comment i = pure k ∧
      Token.skipBlanks comment i (text.drop i) = (k, text.drop k) := by
  obtain ⟨n, hn⟩ : ∃ n, text.length = i + n := ⟨text.length - i, by omega⟩
  induction n generalizing i comment with
  | zero =>
      refine ⟨i, by omega, by omega, ?_, ?_⟩
      · rw [skip, if_neg (by omega)]
      · rw [List.drop_eq_nil_of_le (by omega)]
        rfl
  | succ n ih =>
      have hlt : i < text.length := by omega
      obtain ⟨b, hb, hdrop⟩ := drop_eq_cons hlt
      have hnext : ∀ comment', ∃ k, i ≤ k ∧ k ≤ text.length ∧ skip text comment' (i + 1) = pure k ∧
          Token.skipBlanks comment' (i + 1) (text.drop (i + 1)) = (k, text.drop k) := by
        intro comment'
        obtain ⟨k, hk, hle, hskip, hblanks⟩ := ih comment' (i := i + 1) (by omega) (by omega)
        exact ⟨k, by omega, hle, hskip, hblanks⟩
      rw [skip, if_pos (by omega), item_eq hb, pure_bind, hdrop]
      unfold Token.skipBlanks
      split
      · exact hnext _
      · split
        · exact hnext _
        · split
          · exact hnext _
          · exact ⟨i, by omega, hi, rfl, by rw [hdrop]⟩

theorem identEnd_eq (hi : i ≤ text.length) :
    identEnd text i = pure (i + Token.identLength (text.drop i)) ∧
      i + Token.identLength (text.drop i) ≤ text.length := by
  induction hn : text.length - i using Nat.strongRecOn generalizing i with
  | ind n ih =>
      rw [identEnd]
      by_cases hlt : i < text.length
      · obtain ⟨b, hb, hdrop⟩ := drop_eq_cons hlt
        rw [if_pos hlt, item_eq hb, pure_bind, hdrop]
        by_cases hmore : i + 1 < text.length
        · obtain ⟨c, hc, hdrop'⟩ := drop_eq_cons hmore
          rw [hdrop', Token.identLength, ← hdrop']
          by_cases hident : isIdentByte b = true
          · obtain ⟨hend, hle⟩ := ih _ (by omega) (i := i + 1) (by omega) rfl
            rw [if_pos hident, if_pos hident, hend]
            exact ⟨congrArg pure (by omega), by omega⟩
          · rw [if_neg hident, if_neg hident, item_eq hc]
            simp only [hmore, decide_true, Bool.and_true, pure_bind, Bool.and_eq_true]
            obtain ⟨hend, hle⟩ := ih _ (by omega) (i := i + 1 + 1) (by omega) rfl
            by_cases hhyphen : (b == '-'.toUInt8) = true
            · by_cases hletter : isLetterByte c = true
              · rw [if_pos hhyphen, if_pos hletter, if_pos ⟨hhyphen, hletter⟩, hend]
                exact ⟨congrArg pure (by omega), by omega⟩
              · rw [if_pos hhyphen, if_neg hletter, if_neg fun h => hletter h.2]
                exact ⟨rfl, by omega⟩
            · rw [if_neg hhyphen, if_neg fun h => hhyphen h.1]
              exact ⟨rfl, by omega⟩
        · -- the last byte of the text, after which nothing is looked at
          rw [List.drop_eq_nil_of_le (by omega), Token.identLength]
          by_cases hident : isIdentByte b = true
          · rw [if_pos hident, if_pos hident, identEnd, if_neg hmore]
            exact ⟨rfl, by omega⟩
          · rw [if_neg hident, if_neg hident, if_neg (by simp [hmore])]
            exact ⟨rfl, by omega⟩
      · rw [if_neg hlt, List.drop_eq_nil_of_le (by omega)]
        exact ⟨rfl, hi⟩

theorem digitsEnd_eq (hi : i ≤ text.length) :
    digitsEnd text i = pure (i + ((text.drop i).takeWhile isDigitByte).length) ∧
      i + ((text.drop i).takeWhile isDigitByte).length ≤ text.length := by
  obtain ⟨n, hn⟩ : ∃ n, text.length = i + n := ⟨text.length - i, by omega⟩
  induction n generalizing i with
  | zero =>
      rw [digitsEnd, if_neg (by omega), List.drop_eq_nil_of_le (by omega)]
      exact ⟨rfl, hi⟩
  | succ n ih =>
      have hlt : i < text.length := by omega
      obtain ⟨b, hb, hdrop⟩ := drop_eq_cons hlt
      rw [digitsEnd, if_pos (by omega), item_eq hb, pure_bind, hdrop, List.takeWhile_cons]
      by_cases hdigit : isDigitByte b = true
      · obtain ⟨hend, hle⟩ := ih (i := i + 1) (by omega) (by omega)
        rw [if_pos hdigit, if_pos hdigit, hend, List.length_cons]
        exact ⟨congrArg pure (by omega), by omega⟩
      · rw [if_neg hdigit, if_neg hdigit]
        exact ⟨rfl, hi⟩

theorem slice_beq_eq_isPrefixOf (op : Bytes) :
    ((text.take (i + op.length)).drop i == op) = op.isPrefixOf (text.drop i) := by
  rw [List.drop_take, Nat.add_sub_cancel_left, Bool.eq_iff_iff, beq_iff_eq,
    List.isPrefixOf_iff_prefix, List.prefix_iff_eq_take]
  exact eq_comm

theorem operatorEnd_eq (hi : i ≤ text.length) (ops : List Bytes) :
    ∃ n, (ops.find? (·.isPrefixOf (text.drop i))).elim 0 List.length = n ∧
      operatorEnd text i ops = pure (i + n) ∧ i + n ≤ text.length := by
  induction ops with
  | nil => exact ⟨0, rfl, rfl, hi⟩
  | cons op ops ih =>
      rw [operatorEnd, List.find?_cons]
      by_cases hlen : op.length ≤ text.length - i
      · rw [if_pos hlen, slice_eq (by omega) (by omega), pure_bind, slice_beq_eq_isPrefixOf]
        by_cases hop : op.isPrefixOf (text.drop i) = true
        · rw [if_pos hop, hop]
          exact ⟨op.length, rfl, rfl, by omega⟩
        · rw [if_neg hop, Bool.eq_false_iff.mpr hop]
          exact ih
      · have hop : ¬ op.isPrefixOf (text.drop i) = true := by
          rw [List.isPrefixOf_iff_prefix]
          intro hprefix
          have hle := hprefix.length_le
          rw [List.length_drop] at hle
          exact hlen hle
        rw [if_neg hlen, Bool.eq_false_iff.mpr hop]
        exact ih

theorem atomLength_cons (b : UInt8) (rest : Bytes) :
    Token.atomLength (b :: rest) =
      if b == ':'.toUInt8 || isIdentByte b then Token.identLength rest + 1
      else if (b == '-'.toUInt8 || b == '+'.toUInt8) && rest.head?.any isDigitByte then
        (rest.takeWhile isDigitByte).length + 1
      else (Token.operators.find? (·.isPrefixOf (b :: rest))).elim 0 List.length := by
  rw [Token.atomLength]
  cases Token.operators.find? (·.isPrefixOf (b :: rest)) <;> rfl

/-- An atom ends after its bytes. -/
theorem atomEnd_eq (hi : i < text.length) :
    atomEnd text i = pure (i + Token.atomLength (text.drop i)) ∧
      i + Token.atomLength (text.drop i) ≤ text.length := by
  have hnext : i + 1 ≤ text.length := hi
  obtain ⟨b, hb, hdrop⟩ := drop_eq_cons hi
  obtain ⟨n, hfind, hop, hn⟩ := operatorEnd_eq (Nat.le_of_lt hi) Token.operators
  rw [hdrop] at hfind
  rw [atomEnd, item_eq hb, pure_bind, hdrop, atomLength_cons, hop, hfind]
  by_cases hident : (b == ':'.toUInt8 || isIdentByte b) = true
  · obtain ⟨hend, hle⟩ := identEnd_eq hnext
    rw [if_pos hident, if_pos hident, hend]
    exact ⟨congrArg pure (by omega), by omega⟩
  · rw [if_neg hident, if_neg hident]
    by_cases hmore : i + 1 < text.length
    · obtain ⟨c, hc, hdrop'⟩ := drop_eq_cons hmore
      obtain ⟨hend, hle⟩ := digitsEnd_eq hnext
      rw [item_eq hc, hdrop', List.head?_cons, ← hdrop', hend]
      simp only [hmore, decide_true, Bool.and_true, pure_bind, Option.any_some, Bool.and_eq_true]
      by_cases hsign : (b == '-'.toUInt8 || b == '+'.toUInt8) = true
      · by_cases hdigit : isDigitByte c = true
        · rw [if_pos hsign, if_pos hdigit, if_pos ⟨hsign, hdigit⟩]
          exact ⟨congrArg pure (by omega), by omega⟩
        · rw [if_pos hsign, if_neg hdigit, if_neg fun h => hdigit h.2]
          exact ⟨rfl, hn⟩
      · rw [if_neg hsign, if_neg fun h => hsign h.1]
        exact ⟨rfl, hn⟩
    · rw [if_neg (by simp [hmore]), List.drop_eq_nil_of_le (by omega), List.head?_nil,
        if_neg (by simp)]
      exact ⟨rfl, hn⟩

/-! ## The token at an index -/

/-- The tokens from an index on, and where they end. -/
def tokensAt (text : Bytes) (i : Nat) : List Token × Token.Stop := Token.scan i (text.drop i)

/-- What the two ways of looking at a text find at an index where something stands. -/
inductive Ahead (text : Bytes) (k : Nat) : Prop where
  | finished (hk : k = text.length) (htokens : tokensAt text k = ([], ⟨k, none⟩))
  | opening (hk : k < text.length) (hbyte : item text k = pure '('.toUInt8)
      (htokens : tokensAt text k =
        (⟨k, .opening⟩ :: (tokensAt text (k + 1)).1, (tokensAt text (k + 1)).2))
  | closing (hk : k < text.length) (hbyte : item text k = pure ')'.toUInt8)
      (htokens : tokensAt text k =
        (⟨k, .closing⟩ :: (tokensAt text (k + 1)).1, (tokensAt text (k + 1)).2))
  | unknown (b : UInt8) (hk : k < text.length) (hbyte : item text k = pure b)
      (hopening : b ≠ '('.toUInt8) (hclosing : b ≠ ')'.toUInt8) (hend : atomEnd text k = pure k)
      (htokens : tokensAt text k = ([], ⟨k, some b⟩))
  | atom (b : UInt8) (j : Nat) (hk : k < j) (hj : j ≤ text.length) (hbyte : item text k = pure b)
      (hopening : b ≠ '('.toUInt8) (hclosing : b ≠ ')'.toUInt8) (hend : atomEnd text k = pure j)
      (htokens : tokensAt text k =
        (⟨k, .atom (Bytes.toAscii ((text.take j).drop k))⟩ :: (tokensAt text j).1,
          (tokensAt text j).2))

theorem skipBlanks_skipBlanks {comment : Bool} {rest : Bytes}
    (h : Token.skipBlanks comment i text = (k, rest)) :
    Token.skipBlanks false k rest = (k, rest) := by
  induction text generalizing comment i with
  | nil =>
      obtain ⟨rfl, rfl⟩ := Prod.mk.inj h
      rfl
  | cons b text ih =>
      unfold Token.skipBlanks at h
      split at h
      · exact ih h
      · split at h
        · exact ih h
        · split at h
          · exact ih h
          · rename_i hblank hcomment
            obtain ⟨rfl, rfl⟩ := Prod.mk.inj h
            rw [Token.skipBlanks, if_neg (by decide), if_neg hblank, if_neg hcomment]

theorem ahead (hk : k ≤ text.length)
    (hskip : Token.skipBlanks false k (text.drop k) = (k, text.drop k)) : Ahead text k := by
  have hscan : tokensAt text k = Token.scan k (text.drop k) := rfl
  rw [Token.scan.eq_def] at hscan
  generalize hs : Token.skipBlanks false k (text.drop k) = skipped at hscan
  obtain rfl : skipped = (k, text.drop k) := hs.symm.trans hskip
  by_cases hlt : k < text.length
  · obtain ⟨b, hb, hdrop⟩ := drop_eq_cons hlt
    obtain ⟨hend, hle⟩ := atomEnd_eq hlt
    rw [hdrop] at hscan hend hle
    simp only at hscan
    by_cases hopening : b = '('.toUInt8
    · subst hopening
      exact .opening hlt (item_eq hb) hscan
    · by_cases hclosing : b = ')'.toUInt8
      · subst hclosing
        exact .closing hlt (item_eq hb) hscan
      · rw [if_neg (by simpa using hopening), if_neg (by simpa using hclosing)] at hscan
        cases hlen : Token.atomLength (b :: text.drop (k + 1)) with
        | zero =>
            rw [hlen] at hscan hend
            exact .unknown b hlt (item_eq hb) hopening hclosing hend hscan
        | succ n =>
            rw [hlen] at hend hle
            have hword : b :: (text.drop (k + 1)).take n = (text.take (k + (n + 1))).drop k := by
              rw [List.drop_take, Nat.add_sub_cancel_left, hdrop, List.take_succ_cons]
            simp only [hlen] at hscan
            rw [hword, List.drop_drop, show k + 1 + n = k + n + 1 by omega] at hscan
            exact .atom b (k + (n + 1)) (by omega) hle (item_eq hb) hopening hclosing hend hscan
  · rw [List.drop_eq_nil_of_le (by omega)] at hscan
    exact .finished (by omega) hscan

/-- After blanks something stands, which the tokens start with. -/
theorem skip_ahead (hi : i ≤ text.length) :
    ∃ k, i ≤ k ∧ k ≤ text.length ∧ skip text false i = pure k ∧ skip text false k = pure k ∧
      tokensAt text i = tokensAt text k ∧ Ahead text k := by
  obtain ⟨k, hik, hk, hskip, hblanks⟩ := skip_eq false hi
  have hagain := skipBlanks_skipBlanks hblanks
  obtain ⟨k', _, _, hskip', hblanks'⟩ := skip_eq false hk
  obtain rfl : k' = k := congrArg Prod.fst (hblanks'.symm.trans hagain)
  exact ⟨k', hik, hk, hskip, hskip', Token.scan_congr (hblanks.trans hagain.symm), ahead hk hagain⟩

/-! ## Trees -/

end Indexed

/-- Every atom of the tree has a text, and everything in it starts in the first `n` bytes. -/
inductive Tree.Placed (n : Nat) : Tree → Prop where
  | atom {offset : Nat} {word : String} (ho : offset ≤ n) (hword : word.toList ≠ []) :
      Placed n (.atom offset word)
  | list {offset : Nat} {items : List Tree} (ho : offset ≤ n) (hitems : ∀ t ∈ items, t.Placed n) :
      Placed n (.list offset items)

namespace Indexed

variable {src : Source} {opened outer : List Tree.Open} {found : List Tree} {offset depth : Nat}

theorem fault_eq {α : Type} {o : Nat} (ho : o ≤ src.text.length) (f : SyntaxFault) :
    fault (α := α) src o f = done (.error (src.fault o f)) := by
  rw [fault, slice_eq (Nat.zero_le _) ho]
  rfl

/-- What reading by index gives from `i` on is what building gives inside the lists `opened`, of
the tokens from there on: a tree, which goes into the lists `outer`, or a fault. -/
inductive Delivers (src : Source) (opened outer : List Tree.Open) (i : Nat) :
    Checked (Tree × Nat) → Prop where
  | tree {t : Tree} {j : Nat} (hij : i < j) (hj : j ≤ src.text.length)
      (ht : t.Placed src.text.length)
      (hstop : (tokensAt src.text j).2 = (tokensAt src.text i).2)
      (hbuild : Tree.build (tokensAt src.text i).2 opened (tokensAt src.text i).1 =
        Tree.deliver (tokensAt src.text i).2 t (tokensAt src.text j).1 outer) :
      Delivers src opened outer i (done (.ok (t, j)))
  | fault {o : Nat} {f : TreeFault} (ho : o ≤ src.text.length)
      (hbuild : Tree.build (tokensAt src.text i).2 opened (tokensAt src.text i).1 = .error (o, f)) :
      Delivers src opened outer i (done (.error (src.fault o (.tree f))))

/-- Tokens that only open or fill lists go before. -/
theorem Delivers.prepend {opened' : List Tree.Open} {r : Checked (Tree × Nat)} (hij : i ≤ j)
    (hstop : (tokensAt src.text j).2 = (tokensAt src.text i).2)
    (hbuild : Tree.build (tokensAt src.text i).2 opened (tokensAt src.text i).1 =
      Tree.build (tokensAt src.text i).2 opened' (tokensAt src.text j).1)
    (h : Delivers src opened' outer j r) : Delivers src opened outer i r := by
  rw [← hstop] at hbuild
  cases h with
  | tree hjk hk ht hstop' hbuild' =>
      rw [hstop] at hstop' hbuild hbuild'
      exact .tree (by omega) hk ht hstop' (hbuild.trans hbuild')
  | fault ho hbuild' =>
      rw [hstop] at hbuild hbuild'
      exact .fault ho (hbuild.trans hbuild')

/-- A tree that starts at an index is read as one; if it is a list, its items are. -/
theorem delivers_tree_at (hskip : skip src.text false k = pure k) (hahead : Ahead src.text k)
    (hk : k < src.text.length) (hclosing : item src.text k ≠ pure ')'.toUInt8)
    (hitems : Delivers src (⟨k, []⟩ :: opened) opened (k + 1) (items src depth k (k + 1) [])) :
    Delivers src opened opened k (tree src (depth + 1) k) := by
  rw [tree, hskip, pure_bind, if_neg (by omega)]
  cases hahead with
  | finished hfinished => omega
  | closing _ hbyte => exact absurd hbyte hclosing
  | opening _ hbyte htokens =>
      rw [hbyte, pure_bind, if_neg (by decide), if_pos (by decide)]
      refine .prepend (Nat.le_succ k) ?_ ?_ hitems
      · rw [htokens]
      · rw [htokens]
        rfl
  | unknown b _ hbyte hopening' hclosing' hend htokens =>
      rw [hbyte, pure_bind, if_neg (by simpa using hclosing'), if_neg (by simpa using hopening'),
        hend, pure_bind, if_pos rfl, fault_eq (by omega)]
      refine .fault (by omega) ?_
      rw [htokens]
      rfl
  | atom b j hkj hj hbyte hopening' hclosing' hend htokens =>
      rw [hbyte, pure_bind, if_neg (by simpa using hclosing'), if_neg (by simpa using hopening'),
        hend, pure_bind, if_neg (by omega), slice_eq (by omega) hj, pure_bind]
      refine .tree hkj hj (.atom (by omega) ?_) ?_ ?_
      · rw [Bytes.toAscii, String.toList_ofList, ← List.length_pos_iff, List.length_map,
          List.length_drop, List.length_take]
        omega
      · rw [htokens]
      · rw [htokens, Tree.build_atom]

/-- The rest of a list is read as one. A tree of it takes a byte at least, so that twice as many
nested calls as there are bytes left are enough. -/
theorem delivers_items (hi : i ≤ src.text.length)
    (hdepth : 2 * (src.text.length - i) + 1 ≤ depth) (ho : offset ≤ src.text.length)
    (hfound : ∀ t ∈ found, t.Placed src.text.length) :
    Delivers src (⟨offset, found⟩ :: outer) outer i (items src depth offset i found) := by
  induction hn : src.text.length - i using Nat.strongRecOn
    generalizing i depth offset found outer with
  | ind n ih =>
      obtain ⟨k, hik, hk, hskip, hagain, htokens, hahead⟩ := skip_ahead hi
      refine .prepend hik (by rw [htokens]) (by rw [htokens]) ?_
      obtain ⟨depth, rfl⟩ : ∃ d, depth = d + 1 := ⟨depth - 1, by omega⟩
      rw [items, hskip, pure_bind]
      -- an item is read, and then the rest of the list
      have hitem : k < src.text.length → item src.text k ≠ pure ')'.toUInt8 →
          Delivers src (⟨offset, found⟩ :: outer) outer k
            (tree src depth k >>= fun (t, j) => items src depth offset j (t :: found)) := by
        intro hlt hclosing
        obtain ⟨depth, rfl⟩ : ∃ d, depth = d + 1 := ⟨depth - 1, by omega⟩
        have hinner : Delivers src (⟨k, []⟩ :: ⟨offset, found⟩ :: outer) (⟨offset, found⟩ :: outer)
            (k + 1) (items src depth k (k + 1) []) :=
          ih (src.text.length - (k + 1)) (by omega) (by omega) (by omega) hk (by simp) rfl
        have htree := delivers_tree_at hagain hahead hlt hclosing hinner
        generalize tree src (depth + 1) k = r at htree
        cases htree with
        | fault ho hbuild => exact .fault ho hbuild
        | tree hkj hj ht hstop hbuild =>
            rw [done_ok_bind]
            refine .prepend (Nat.le_of_lt hkj) hstop hbuild ?_
            exact ih _ (by omega) hj (by omega) ho (List.forall_mem_cons.mpr ⟨ht, hfound⟩) rfl
      cases hahead with
      | finished hfinished htokens =>
          rw [if_pos hfinished, fault_eq ho]
          refine .fault ho ?_
          rw [htokens]
          rfl
      | closing hlt hbyte htokens =>
          rw [if_neg (by omega), hbyte, pure_bind, if_pos (by decide)]
          refine .tree (Nat.lt_succ_self k) hlt (.list ho ?_) ?_ ?_
          · simpa using hfound
          · rw [htokens]
          · rw [htokens, Tree.build_closing]
      | opening hlt hbyte =>
          rw [if_neg (by omega), hbyte, pure_bind, if_neg (by decide)]
          exact hitem hlt (by rw [hbyte, Ne, pure_inj]; decide)
      | unknown b hlt hbyte _ hclosing =>
          rw [if_neg (by omega), hbyte, pure_bind, if_neg (by simpa using hclosing)]
          exact hitem hlt (by simpa [hbyte] using hclosing)
      | atom b j hkj hj hbyte _ hclosing =>
          rw [if_neg (by omega), hbyte, pure_bind, if_neg (by simpa using hclosing)]
          exact hitem (by omega) (by simpa [hbyte] using hclosing)

/-- The first tree of a text is the one that the tokens give, or else the fault is. -/
theorem delivers_tree (hdepth : 2 * src.text.length + 1 ≤ depth) :
    Delivers src [] [] 0 (tree src depth 0) := by
  obtain ⟨k, hik, hk, hskip, hagain, htokens, hahead⟩ := skip_ahead (Nat.zero_le src.text.length)
  refine .prepend hik (by rw [htokens]) (by rw [htokens]) ?_
  obtain ⟨depth, rfl⟩ : ∃ d, depth = d + 1 := ⟨depth - 1, by omega⟩
  have hstart : tree src (depth + 1) 0 = tree src (depth + 1) k := by
    rw [tree, tree, hskip, hagain]
  rw [hstart]
  have hitem : k < src.text.length → item src.text k ≠ pure ')'.toUInt8 →
      Delivers src [] [] k (tree src (depth + 1) k) := by
    intro hlt hclosing
    refine delivers_tree_at hagain hahead hlt hclosing ?_
    exact delivers_items (by omega) (by omega) hk (by simp)
  cases hahead with
  | finished hfinished htokens =>
      rw [tree, hagain, pure_bind, if_pos hfinished, fault_eq hk]
      refine .fault hk ?_
      rw [htokens]
      rfl
  | closing hlt hbyte htokens =>
      rw [tree, hagain, pure_bind, if_neg (by omega), hbyte, pure_bind, if_pos (by decide),
        fault_eq hk]
      refine .fault hk ?_
      rw [htokens]
      rfl
  | opening hlt hbyte => exact hitem hlt (by rw [hbyte, Ne, pure_inj]; decide)
  | unknown b hlt hbyte _ hclosing => exact hitem hlt (by simpa [hbyte] using hclosing)
  | atom b j hkj hj hbyte _ hclosing => exact hitem (by omega) (by simpa [hbyte] using hclosing)

/-- What is left of a text starts at the index, unless nothing is left. -/
theorem Ahead.start (h : Ahead text k) :
    (k = text.length ∧ (tokensAt text k).1 = [] ∧ (tokensAt text k).2.byte? = none) ∨
      (k < text.length ∧ ¬ ((tokensAt text k).1 = [] ∧ (tokensAt text k).2.byte? = none) ∧
        ((tokensAt text k).1.head?.map Token.offset).getD (tokensAt text k).2.offset = k) := by
  cases h with
  | finished hk htokens => exact .inl ⟨hk, by rw [htokens], by rw [htokens]⟩
  | opening hk _ htokens => exact .inr ⟨hk, by simp [htokens], by simp [htokens]⟩
  | closing hk _ htokens => exact .inr ⟨hk, by simp [htokens], by simp [htokens]⟩
  | unknown _ hk _ _ _ _ htokens => exact .inr ⟨hk, by simp [htokens], by simp [htokens]⟩
  | atom _ _ hkj hj _ _ _ _ htokens => exact .inr ⟨by omega, by simp [htokens], by simp [htokens]⟩

/-- A text is a tree if nothing is left after one. -/
theorem tree_of_build {tokens rest : List Token} {stop : Token.Stop} {t : Tree}
    (hscan : Token.scan 0 src.text = (tokens, stop))
    (hbuild : Tree.build stop [] tokens = .ok (t, rest)) (extra : SyntaxFault) :
    src.tree extra =
      if rest = [] ∧ stop.byte? = none then .ok t
      else .error (src.fault ((rest.head?.map Token.offset).getD stop.offset) extra) := by
  simp only [Source.tree, hscan, hbuild]
  obtain ⟨o, byte?⟩ := stop
  cases rest <;> cases byte? <;> rfl

/-- The only tree of a text: both readers find it, or both report the same fault. -/
theorem whole_cases (hdepth : 2 * src.text.length + 1 ≤ depth) (extra : SyntaxFault) :
    (∃ t, t.Placed src.text.length ∧ whole src depth extra = done (.ok t) ∧
        src.tree extra = .ok t) ∨
      ∃ o f, o ≤ src.text.length ∧ whole src depth extra = done (.error (src.fault o f)) ∧
        src.tree extra = .error (src.fault o f) := by
  have htree := delivers_tree hdepth
  have hscan : Token.scan 0 src.text = ((tokensAt src.text 0).1, (tokensAt src.text 0).2) := rfl
  rw [whole]
  generalize tree src depth 0 = r at htree
  cases htree with
  | fault ho hbuild =>
      refine .inr ⟨_, _, ho, rfl, ?_⟩
      simp only [Source.tree, hscan, hbuild]
  | tree _ hj ht hstop hbuild =>
      obtain ⟨k, _, hk, hskip, _, htokens, hahead⟩ := skip_ahead hj
      rw [tree_of_build hscan hbuild, ← hstop, htokens, done_ok_bind]
      simp only [hskip, pure_bind]
      rcases hahead.start with ⟨hfinished, hleft⟩ | ⟨hlt, hleft, hstart⟩
      · exact .inl ⟨_, ht, if_pos hfinished, if_pos hleft⟩
      · rw [if_neg (by omega), if_neg hleft, hstart, fault_eq hk]
        exact .inr ⟨k, extra, hk, rfl, rfl⟩

theorem whole_eq (hdepth : 2 * src.text.length + 1 ≤ depth) (extra : SyntaxFault) :
    whole src depth extra = done (src.tree extra) := by
  rcases whole_cases hdepth extra with ⟨t, _, hwhole, htree⟩ | ⟨o, f, _, hwhole, htree⟩
  · rw [hwhole, htree]
  · rw [hwhole, htree]

theorem whole_eq_ok_iff (hdepth : 2 * src.text.length + 1 ≤ depth) (extra : SyntaxFault)
    (t : Tree) :
    whole src depth extra = done (.ok t) ↔
      ∃ i, tree src depth 0 = done (.ok (t, i)) ∧
        skip src.text false i = pure src.text.length := by
  have htree := delivers_tree hdepth
  rw [whole]
  generalize tree src depth 0 = r at htree
  cases htree with
  | fault ho _ => simp
  | @tree t' j _ hj _ _ _ =>
      obtain ⟨k, _, hk, hskip, _⟩ := skip_ahead hj
      rw [done_ok_bind]
      simp only [hskip, pure_bind]
      by_cases hend : k = src.text.length
      · rw [if_pos hend]
        constructor
        · intro h
          cases h
          exact ⟨j, rfl, hskip.trans (congrArg pure hend)⟩
        · rintro ⟨i, ⟨⟩, _⟩
          rfl
      · rw [if_neg hend, fault_eq hk]
        constructor
        · intro h
          cases h
        · rintro ⟨i, ⟨⟩, hskip'⟩
          exact absurd (pure_inj.mp (hskip.symm.trans hskip')) hend

end Indexed

end Spillway
