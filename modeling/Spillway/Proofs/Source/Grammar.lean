import Spillway.Proofs.Source.Indexed
import Spillway.Proofs.Source.Offsets

/-!
# What is read is what the lexemes say

A text is read as a tree exactly if its lexemes are those that the tree is written with
(`Source.tree_eq_ok_iff`). Building never drops, adds or moves a lexeme (`Tree.lexemes_of_build`),
and tokens with the lexemes of a tree are always built into it (`Tree.build_lexemes`).

So blanks and comments do not matter: texts with the same lexemes are read alike, as trees and as
programs (`Source.tree_iff_lexemes`).
-/

namespace Spillway

namespace Tree

mutual

theorem lexemes_erase (t : Tree) : t.erase.lexemes = t.lexemes := by
  cases t with
  | atom o word => rfl
  | list o items => rw [erase, lexemes, lexemes, lexemesAll_erase]

theorem lexemesAll_erase (ts : List Tree) : lexemesAll (eraseAll ts) = lexemesAll ts := by
  cases ts with
  | nil => rfl
  | cons t ts => rw [eraseAll, lexemesAll, lexemesAll, lexemes_erase, lexemesAll_erase]

end

/-! ## From trees to lexemes -/

variable {stop : Token.Stop} {opened outer : List Open} {tokens rest : List Token} {s t : Tree}

/-- The lexemes of lists that are still open, from the outermost on. -/
def pending : List Open → List Lexeme
  | [] => []
  | inner :: outer => pending outer ++ .opening :: lexemesAll inner.items.reverse

theorem pending_cons_cons (s : Tree) (inner : Open) (outer : List Open) :
    pending (⟨inner.offset, s :: inner.items⟩ :: outer) =
      pending (inner :: outer) ++ s.lexemes := by
  simp [pending, lexemesAll_eq_flatMap]

/-- No lexeme is dropped, added or moved while a tree is built. -/
theorem lexemes_of_build (h : build stop opened tokens = .ok (t, rest)) :
    t.lexemes ++ rest.map Token.lexeme = pending opened ++ tokens.map Token.lexeme := by
  induction tokens generalizing opened with
  | nil => cases h
  | cons token tokens ih =>
      -- a tree that has been read is the result, or an item of the list around it
      have hdeliver : ∀ {s : Tree} {outer : List Open},
          deliver stop s tokens outer = .ok (t, rest) →
          t.lexemes ++ rest.map Token.lexeme =
            pending outer ++ s.lexemes ++ tokens.map Token.lexeme := by
        intro s outer h
        cases outer with
        | nil =>
            cases h
            rfl
        | cons inner outer => rw [ih h, pending_cons_cons]
      obtain ⟨o, l⟩ := token
      cases l with
      | opening =>
          have hinner : build stop (⟨o, []⟩ :: opened) tokens = .ok (t, rest) := h
          rw [ih hinner]
          simp [pending, lexemesAll]
      | closing =>
          cases opened with
          | nil => cases h
          | cons inner outer =>
              rw [build_closing] at h
              rw [hdeliver h]
              simp [pending, lexemes]
      | atom word =>
          rw [build_atom] at h
          rw [hdeliver h]
          simp [lexemes]

end Tree

/-- The lexemes of a text, unless it has a byte at which no token starts. -/
def Token.lex (text : Bytes) : Option (List Lexeme) :=
  if (cut text).2 = none then some (cut text).1 else none

theorem Token.lex_eq_some {text : Bytes} {ls : List Lexeme} :
    lex text = some ls ↔ (scan 0 text).1.map lexeme = ls ∧ (scan 0 text).2.byte? = none := by
  unfold lex cut
  by_cases hstop : (scan 0 text).2.byte? = none
  · rw [if_pos hstop]
    simp [hstop]
  · rw [if_neg hstop]
    simp [hstop]

namespace Source

variable {src src' : Source} {extra extra' : SyntaxFault} {t x : Tree}

/-! ## Texts and trees -/

theorem lex_of_tree (h : src.tree extra = .ok t) : Token.lex src.text = some t.lexemes := by
  cases hbuild : Tree.build (Token.scan 0 src.text).2 [] (Token.scan 0 src.text).1 with
  | error fault =>
      simp only [tree, hbuild] at h
      cases h
  | ok read =>
      obtain ⟨t', rest⟩ := read
      rw [Indexed.tree_of_build rfl hbuild] at h
      by_cases hend : rest = [] ∧ (Token.scan 0 src.text).2.byte? = none
      · rw [if_pos hend] at h
        cases h
        obtain ⟨rfl, hstop⟩ := hend
        have hlexemes := Tree.lexemes_of_build hbuild
        rw [List.map_nil, List.append_nil] at hlexemes
        exact Token.lex_eq_some.mpr ⟨hlexemes.symm, hstop⟩
      · rw [if_neg hend] at h
        cases h

theorem tree_of_lex (h : Token.lex src.text = some x.lexemes) (extra : SyntaxFault) :
    ∃ t, src.tree extra = .ok t ∧ t.erase = x.erase := by
  obtain ⟨hlexemes, hstop⟩ := Token.lex_eq_some.mp h
  obtain ⟨t, rest, ht, hrest, hbuild⟩ :=
    Tree.build_lexemes (Token.scan 0 src.text).2 x [] (hlexemes.trans (List.append_nil _).symm)
  obtain rfl : rest = [] := List.map_eq_nil_iff.mp hrest
  refine ⟨t, ?_, ht⟩
  rw [Indexed.tree_of_build rfl hbuild, if_pos ⟨rfl, hstop⟩]

/-- A text is read as a tree exactly if it has the lexemes of the tree. -/
theorem tree_eq_ok_iff (src : Source) (extra : SyntaxFault) (x : Tree) :
    (∃ t, src.tree extra = .ok t ∧ t.erase = x.erase) ↔ Token.lex src.text = some x.lexemes := by
  constructor
  · rintro ⟨t, htree, ht⟩
    rw [lex_of_tree htree, ← Tree.lexemes_erase t, ht, Tree.lexemes_erase]
  · intro h
    exact tree_of_lex h extra

/-- Texts with the same lexemes are read as the same tree, up to offsets. -/
theorem tree_congr (h : Token.lex src'.text = Token.lex src.text) (extra extra' : SyntaxFault) :
    (src'.tree extra').toOption.map Tree.erase = (src.tree extra).toOption.map Tree.erase := by
  cases htree : src.tree extra with
  | ok t =>
      obtain ⟨t', htree', ht⟩ := tree_of_lex (h.trans (lex_of_tree htree)) extra'
      rw [htree']
      exact congrArg some ht
  | error e =>
      cases htree' : src'.tree extra' with
      | ok t' =>
          obtain ⟨t, ht, _⟩ := tree_of_lex (h.symm.trans (lex_of_tree htree')) extra
          rw [htree] at ht
          cases ht
      | error e' => rfl

/-- What is read from a tree without its offsets is read alike from texts with the same lexemes. -/
theorem bind_tree_congr {α : Type} {read read' : Tree → Except Error α}
    (h : Token.lex src'.text = Token.lex src.text) (extra extra' : SyntaxFault)
    (hread : ∀ t t', t'.erase = t.erase → (read' t').toOption = (read t).toOption) :
    (src'.tree extra' >>= read').toOption = (src.tree extra >>= read).toOption := by
  have htrees := tree_congr h extra extra'
  rw [toOption_bind, toOption_bind]
  generalize (src.tree extra).toOption = found at htrees
  generalize (src'.tree extra').toOption = found' at htrees
  cases found with
  | none =>
      obtain rfl : found' = none := Option.map_eq_none_iff.mp htrees
      rfl
  | some t =>
      obtain ⟨t', rfl, ht⟩ := Option.map_eq_some_iff.mp htrees
      exact hread t t' ht

/-- The reader by index accepts exactly the texts with the lexemes of a tree. -/
theorem indexed_eq_ok_iff (src : Source) (x : Tree) :
    (∃ t i, Indexed.tree src (2 * src.text.length + 1) 0 = .done (.ok (t, i)) ∧
        Indexed.skip src.text false i = pure src.text.length ∧ t.erase = x.erase) ↔
      Token.lex src.text = some x.lexemes := by
  have hdepth := Nat.le_refl (2 * src.text.length + 1)
  -- which fault a text that goes on would have does not matter
  have hwhole := Indexed.whole_eq_ok_iff hdepth .afterProgram
  simp only [Indexed.whole_eq hdepth, Checked.done.injEq] at hwhole
  rw [← tree_eq_ok_iff src .afterProgram x]
  constructor
  · rintro ⟨t, i, hindexed, hskip, ht⟩
    exact ⟨t, (hwhole t).mpr ⟨i, hindexed, hskip⟩, ht⟩
  · rintro ⟨t, htree, ht⟩
    obtain ⟨i, hindexed, hskip⟩ := (hwhole t).mp htree
    exact ⟨t, i, hindexed, hskip, ht⟩

/-- A text is read as a tree, by index or from its tokens, exactly if it is cut into the lexemes
that the tree is written with. Texts that are cut alike are read alike, whatever stands between
their tokens: as the same tree up to offsets, the same program and the same function, or not at
all. -/
theorem tree_iff_lexemes (name : String) (text : Bytes) :
    (∀ x : Tree,
      ((∃ t i, Indexed.tree ⟨name, text⟩ (2 * text.length + 1) 0 = .done (.ok (t, i)) ∧
          Indexed.skip text false i = pure text.length ∧ t.erase = x.erase) ↔
        Token.lex text = some x.lexemes) ∧
      ∀ extra, (∃ t, tree ⟨name, text⟩ extra = .ok t ∧ t.erase = x.erase) ↔
        Token.lex text = some x.lexemes) ∧
      ∀ name' text', Token.lex text' = Token.lex text →
        (∀ extra extra', (tree ⟨name', text'⟩ extra').toOption.map Tree.erase =
          (tree ⟨name, text⟩ extra).toOption.map Tree.erase) ∧
        (Program.parse name' text').toOption = (Program.parse name text).toOption ∧
        (Func.parse text').toOption = (Func.parse text).toOption := by
  constructor
  · intro x
    exact ⟨indexed_eq_ok_iff ⟨name, text⟩ x, fun extra => tree_eq_ok_iff ⟨name, text⟩ extra x⟩
  intro name' text' hlex
  refine ⟨fun extra extra' => tree_congr hlex extra extra', ?_, ?_⟩
  · refine bind_tree_congr hlex _ _ fun t t' ht => ?_
    rw [← program_erase ⟨name, text⟩, ht, program_erase]
  · refine bind_tree_congr hlex _ _ fun t t' ht => ?_
    rw [← func_erase ⟨"func", text⟩, ht, func_erase]

/-- A program with a comment before it, in it and after it. -/
def annotated : Bytes :=
  Bytes.ofString "; all of it\n( :f;entry\n\t(:f 0 0(x<-1)\r\n(return) ) );end"

/-- The same program on one line. -/
def plain : Bytes := Bytes.ofString "(:f (:f 0 0 (x <- 1) (return)))"

theorem tree_iff_lexemes_annotated :
    Token.lex annotated = Token.lex plain ∧
      (Program.parse "a" annotated).toOption = (Program.parse "b" plain).toOption ∧
      (Program.parse "b" plain).toOption.isSome := by
  have hlex : Token.lex annotated = Token.lex plain := by decide +kernel
  have hread := (tree_iff_lexemes "b" plain).2 "a" annotated hlex
  exact ⟨hlex, hread.2.1, by decide +kernel⟩

end Source

end Spillway
