import Spillway.Source.Tree

/-!
# Trees and the lexemes they are written with

`Tree.lexemes` flattens a tree. Reading tokens that carry the lexemes of a tree gives the tree back,
up to the offsets, which are those of the tokens (`build_lexemes`). Conversely the atoms of a tree
that has been read are atoms of the tokens (`atom_of_build`).
-/

namespace Spillway.Tree

mutual

/-- The lexemes that a tree is written with. -/
def lexemes : Tree → List Lexeme
  | atom _ t => [.atom t]
  | list _ items => .opening :: (lexemesAll items ++ [.closing])

/-- The lexemes of trees one after the other. -/
def lexemesAll : List Tree → List Lexeme
  | [] => []
  | t :: ts => t.lexemes ++ lexemesAll ts

end

mutual

/-- The tree with every offset zero. -/
def erase : Tree → Tree
  | atom _ t => atom 0 t
  | list _ items => list 0 (eraseAll items)

/-- The trees with every offset zero. -/
def eraseAll : List Tree → List Tree
  | [] => []
  | t :: ts => t.erase :: eraseAll ts

end

theorem lexemesAll_eq_flatMap (ts : List Tree) : lexemesAll ts = ts.flatMap lexemes := by
  induction ts with
  | nil => rfl
  | cons t ts ih => rw [lexemesAll, List.flatMap_cons, ih]

theorem erase_eq_atom {t : Tree} {o : Nat} {s : String} :
    t.erase = atom o s ↔ o = 0 ∧ ∃ o', t = atom o' s := by
  cases t with
  | atom o' s' => simp [erase, eq_comm]
  | list o' ts => simp [erase]

theorem erase_eq_list {t : Tree} {o : Nat} {ss : List Tree} :
    t.erase = list o ss ↔ o = 0 ∧ ∃ o' ts, t = list o' ts ∧ eraseAll ts = ss := by
  cases t with
  | atom o' s => simp [erase]
  | list o' ts =>
      simp only [erase, list.injEq]
      constructor
      · rintro ⟨rfl, hts⟩
        exact ⟨rfl, o', ts, ⟨rfl, rfl⟩, hts⟩
      · rintro ⟨rfl, _, _, ⟨rfl, rfl⟩, hts⟩
        exact ⟨rfl, hts⟩

theorem eraseAll_eq_nil {ts : List Tree} : eraseAll ts = [] ↔ ts = [] := by
  cases ts <;> simp [eraseAll]

theorem eraseAll_eq_cons {ts ss : List Tree} {s : Tree} :
    eraseAll ts = s :: ss ↔ ∃ t ts', ts = t :: ts' ∧ t.erase = s ∧ eraseAll ts' = ss := by
  cases ts with
  | nil => simp [eraseAll]
  | cons t ts =>
      simp only [eraseAll, List.cons.injEq]
      constructor
      · rintro ⟨ht, hts⟩
        exact ⟨t, ts, ⟨rfl, rfl⟩, ht, hts⟩
      · rintro ⟨_, _, ⟨rfl, rfl⟩, ht, hts⟩
        exact ⟨ht, hts⟩

/-! ## From lexemes to trees -/

variable {stop : Token.Stop}

/-- What follows once a tree has been read inside open lists. -/
def deliver (stop : Token.Stop) (t : Tree) (rest : List Token) :
    List Open → Except (Nat × TreeFault) (Tree × List Token)
  | [] => .ok (t, rest)
  | inner :: outer => build stop (⟨inner.offset, t :: inner.items⟩ :: outer) rest

theorem build_atom (o : Nat) (t : String) (rest : List Token) (opened : List Open) :
    build stop opened (⟨o, .atom t⟩ :: rest) = deliver stop (.atom o t) rest opened := by
  cases opened <;> rfl

theorem build_closing (o : Nat) (rest : List Token) (inner : Open) (outer : List Open) :
    build stop (inner :: outer) (⟨o, .closing⟩ :: rest) =
      deliver stop (.list inner.offset inner.items.reverse) rest outer := by
  cases outer <;> rfl

theorem map_lexeme_eq_cons {tokens : List Token} {l : Lexeme} {ls : List Lexeme}
    (h : tokens.map Token.lexeme = l :: ls) :
    ∃ o rest, tokens = ⟨o, l⟩ :: rest ∧ rest.map Token.lexeme = ls := by
  obtain ⟨⟨o, l'⟩, rest, rfl, rfl, hrest⟩ := List.map_eq_cons_iff.mp h
  exact ⟨o, rest, rfl, hrest⟩

mutual

/-- Tokens with the lexemes of a tree are read as this tree, at other offsets. -/
theorem build_lexemes (stop : Token.Stop) (s : Tree) (opened : List Open) {tokens : List Token}
    {ls : List Lexeme} (h : tokens.map Token.lexeme = s.lexemes ++ ls) :
    ∃ t rest, t.erase = s.erase ∧ rest.map Token.lexeme = ls ∧
      build stop opened tokens = deliver stop t rest opened := by
  cases s with
  | atom o t =>
      obtain ⟨o', rest, rfl, hrest⟩ := map_lexeme_eq_cons h
      exact ⟨.atom o' t, rest, rfl, hrest, build_atom ..⟩
  | list o items =>
      rw [lexemes, List.cons_append, List.append_assoc] at h
      obtain ⟨o', rest, rfl, hrest⟩ := map_lexeme_eq_cons h
      obtain ⟨ts, rest, hts, hrest, hbuild⟩ := build_lexemesAll stop items ⟨o', []⟩ opened hrest
      obtain ⟨_, rest, rfl, htail⟩ := map_lexeme_eq_cons hrest
      refine ⟨.list o' ts, rest, by rw [erase, erase, hts], htail, ?_⟩
      show build stop (⟨o', []⟩ :: opened) _ = _
      -- items are collected in reverse, and turned when the list closes
      rw [hbuild, build_closing]
      simp

/-- The same for the items of a list, which end up in the innermost open list. -/
theorem build_lexemesAll (stop : Token.Stop) (ss : List Tree) (inner : Open) (outer : List Open)
    {tokens : List Token} {ls : List Lexeme} (h : tokens.map Token.lexeme = lexemesAll ss ++ ls) :
    ∃ ts rest, eraseAll ts = eraseAll ss ∧ rest.map Token.lexeme = ls ∧
      build stop (inner :: outer) tokens =
        build stop (⟨inner.offset, ts.reverse ++ inner.items⟩ :: outer) rest := by
  cases ss with
  | nil => exact ⟨[], tokens, rfl, h, rfl⟩
  | cons s ss =>
      rw [lexemesAll, List.append_assoc] at h
      obtain ⟨t, rest, ht, hrest, hbuild⟩ := build_lexemes stop s (inner :: outer) h
      obtain ⟨ts, rest, hts, hrest, hbuild'⟩ :=
        build_lexemesAll stop ss ⟨inner.offset, t :: inner.items⟩ outer hrest
      refine ⟨t :: ts, rest, by rw [eraseAll, eraseAll, ht, hts], hrest, ?_⟩
      rw [hbuild, deliver, hbuild']
      simp

end

/-! ## Atoms -/

/-- The string is an atom of the tree. -/
def HasAtom (t : Tree) (a : String) : Prop := .atom a ∈ t.lexemes

variable {a : String}

@[simp] theorem hasAtom_atom {o : Nat} {t : String} : (atom o t).HasAtom a ↔ a = t := by
  simp [HasAtom, lexemes]

@[simp] theorem hasAtom_list {o : Nat} {items : List Tree} :
    (list o items).HasAtom a ↔ ∃ t ∈ items, t.HasAtom a := by
  simp [HasAtom, lexemes, lexemesAll_eq_flatMap]

/-- The atoms of a tree come from the tokens that were read, or from lists that were open. -/
theorem atom_of_build {opened : List Open} {tokens rest : List Token} {t : Tree}
    (h : build stop opened tokens = .ok (t, rest)) (ha : t.HasAtom a) :
    (∃ o, ⟨o, .atom a⟩ ∈ tokens) ∨ ∃ u ∈ opened, ∃ s ∈ u.items, s.HasAtom a := by
  induction tokens generalizing opened with
  | nil => cases h
  | cons token tokens ih =>
      obtain ⟨o, l⟩ := token
      -- a tree that has been read is the result, or an item of the list around it
      have hdeliver : ∀ {s : Tree} {opened : List Open},
          deliver stop s tokens opened = .ok (t, rest) →
          (∃ o, ⟨o, .atom a⟩ ∈ tokens) ∨ s.HasAtom a ∨
            ∃ u ∈ opened, ∃ s ∈ u.items, s.HasAtom a := by
        intro s opened h
        cases opened with
        | nil =>
            cases h
            exact .inr (.inl ha)
        | cons inner outer =>
            have hrest := ih h
            simp only [List.mem_cons, exists_eq_or_imp] at hrest ⊢
            grind
      have hmore : (∃ o, ⟨o, .atom a⟩ ∈ tokens) →
          ∃ o', ⟨o', .atom a⟩ ∈ (⟨o, l⟩ :: tokens : List Token) :=
        fun ⟨o', ho'⟩ => ⟨o', List.mem_cons_of_mem _ ho'⟩
      cases l with
      | opening =>
          have hinner : build stop (⟨o, []⟩ :: opened) tokens = .ok (t, rest) := h
          refine (ih hinner).imp hmore ?_
          simp
      | closing =>
          cases opened with
          | nil => cases h
          | cons inner outer =>
              rw [build_closing] at h
              refine (hdeliver h).imp hmore ?_
              simp
      | atom t =>
          rw [build_atom] at h
          rcases hdeliver h with htokens | hatom | hopened
          · exact .inl (hmore htokens)
          · exact .inl ⟨o, by simp_all⟩
          · exact .inr hopened

end Spillway.Tree
