import Spillway.Source.Token

/-!
# Cutting a text, without offsets

`Token.cut` is what `Token.scan` finds, without the places where it finds it. It can be computed
from the left: blanks are skipped (`cut_blank`), a parenthesis is a lexeme (`cut_opening`,
`cut_closing`), and so is an atom that its continuation does not prolong (`cut_atom`).

An atom is an identifier, a numeral with a sign or an operator (`AtomBytes`). It ends before a
separator (`IsAtom.cut_append`), and also before the operators that are written right after an
operand, unless both make up a longer operator (`IsAtom.cut_append_glued`).

`Token.spell` writes lexemes with single blanks where they are needed, and cutting finds them again
(`cut_spell`).
-/

namespace Spillway

namespace Bytes

@[simp] theorem ofString_append (s t : String) :
    ofString (s ++ t) = ofString s ++ ofString t := by
  simp [ofString]

/-- What can be checked of all 256 bytes. -/
theorem forall_byte {P : UInt8 → Prop} (h : ∀ n < 256, P (UInt8.ofNat n)) (b : UInt8) : P b := by
  have hb := h b.toNat b.toNat_lt
  rwa [UInt8.ofNat_toNat] at hb

/-- The bytes of a string of ASCII bytes are these bytes. -/
theorem ofString_toAscii {bs : Bytes} (h : ∀ b ∈ bs, b < 128) : ofString (toAscii bs) = bs := by
  unfold ofString toAscii
  rw [String.toList_ofList]
  induction bs with
  | nil => rfl
  | cons b bs ih =>
      rw [List.forall_mem_cons] at h
      have hb : b.toNat < 128 := UInt8.lt_iff_toNat_lt.mp h.1
      have hval : (Char.ofNat b.toNat).val.toNat = b.toNat := by
        have hvalid : b.toNat.isValidChar := Or.inl (by omega)
        rw [Char.ofNat, dif_pos hvalid]
        rfl
      rw [List.map_cons, List.flatMap_cons, ih h.2]
      have hbyte : String.utf8EncodeChar (Char.ofNat b.toNat) = [b] := by
        unfold String.utf8EncodeChar
        simp only [hval]
        rw [if_pos (by omega), UInt8.ofNat_toNat]
      rw [hbyte]
      rfl

end Bytes

namespace Token

variable {b : UInt8} {text rest : Bytes} {o : Nat}

/-! ## Offsets do not matter -/

/-- What is cut depends on the text after blanks and comments. -/
theorem scan_congr {text' : Bytes} {o' : Nat}
    (h : skipBlanks false o text = skipBlanks false o' text') : scan o text = scan o' text' := by
  rw [scan, scan, h]

theorem skipBlanks_snd (comment : Bool) (o o' : Nat) (text : Bytes) :
    (skipBlanks comment o text).2 = (skipBlanks comment o' text).2 := by
  induction text generalizing comment o o' with
  | nil => rfl
  | cons b rest ih =>
      unfold skipBlanks
      split
      · exact ih ..
      · split
        · exact ih ..
        · split
          · exact ih ..
          · rfl

/-- A text is cut alike wherever it starts. -/
theorem scan_offset (o o' : Nat) (text : Bytes) :
    (scan o text).1.map lexeme = (scan o' text).1.map lexeme ∧
      (scan o text).2.byte? = (scan o' text).2.byte? := by
  induction hn : text.length using Nat.strongRecOn generalizing o o' text with
  | ind n ih =>
      have hskip := skipBlanks_snd false o o' text
      have hle := length_skipBlanks_le false o text
      rw [scan.eq_def o, scan.eq_def o']
      -- blanks end at different offsets, but with the same text after them
      generalize hs : skipBlanks false o text = skipped at hskip hle
      generalize hs' : skipBlanks false o' text = skipped' at hskip
      obtain ⟨start, found⟩ := skipped
      obtain ⟨start', found'⟩ := skipped'
      obtain rfl : found = found' := hskip
      cases found with
      | nil => exact ⟨rfl, rfl⟩
      | cons b rest =>
          have hlt : rest.length < n := by
            rw [← hn]
            exact hle
          simp only
          split
          · have htail := ih _ hlt (start + 1) (start' + 1) rest rfl
            exact ⟨congrArg (Lexeme.opening :: ·) htail.1, htail.2⟩
          · split
            · have htail := ih _ hlt (start + 1) (start' + 1) rest rfl
              exact ⟨congrArg (Lexeme.closing :: ·) htail.1, htail.2⟩
            · split
              · exact ⟨rfl, rfl⟩
              · rename_i k _
                have hdrop : (rest.drop k).length < n := by
                  rw [List.length_drop]
                  omega
                have htail := ih _ hdrop (start + k + 1) (start' + k + 1) (rest.drop k) rfl
                exact ⟨congrArg (Lexeme.atom _ :: ·) htail.1, htail.2⟩

/-! ## Cutting from the left -/

/-- The lexemes of a text, and the byte at which no token starts, if any. -/
def cut (text : Bytes) : List Lexeme × Option UInt8 :=
  ((scan 0 text).1.map lexeme, (scan 0 text).2.byte?)

theorem cut_eq_scan (o : Nat) (text : Bytes) :
    cut text = ((scan o text).1.map lexeme, (scan o text).2.byte?) := by
  obtain ⟨htokens, hstop⟩ := scan_offset 0 o text
  rw [cut, htokens, hstop]

@[simp] theorem cut_nil : cut [] = ([], none) := by
  rw [cut, scan]
  rfl

theorem cut_blank (hb : isBlankByte b = true) (rest : Bytes) : cut (b :: rest) = cut rest := by
  have hskip : skipBlanks false 0 (b :: rest) = skipBlanks false 1 rest := by
    rw [skipBlanks, if_neg (by decide), if_pos hb]
  rw [cut, scan_congr hskip, cut_eq_scan 1]

theorem cut_opening (rest : Bytes) :
    cut ('('.toUInt8 :: rest) = (.opening :: (cut rest).1, (cut rest).2) := by
  have hscan : scan 0 ('('.toUInt8 :: rest) =
      (⟨0, .opening⟩ :: (scan 1 rest).1, (scan 1 rest).2) := by
    rw [scan]
    rfl
  rw [cut, hscan, cut_eq_scan 1]
  rfl

theorem cut_closing (rest : Bytes) :
    cut (')'.toUInt8 :: rest) = (.closing :: (cut rest).1, (cut rest).2) := by
  have hscan : scan 0 (')'.toUInt8 :: rest) =
      (⟨0, .closing⟩ :: (scan 1 rest).1, (scan 1 rest).2) := by
    rw [scan]
    rfl
  rw [cut, hscan, cut_eq_scan 1]
  rfl

/-- A byte with which neither a blank nor a comment nor a parenthesis starts. -/
def startsAtom (b : UInt8) : Bool :=
  !isBlankByte b && b != ';'.toUInt8 && b != '('.toUInt8 && b != ')'.toUInt8

/-- What starts an atom is one or stops the cutting. -/
theorem scan_of_startsAtom (hb : startsAtom b = true) (rest : Bytes) :
    scan 0 (b :: rest) =
      match atomLength (b :: rest) with
      | 0 => ([], ⟨0, some b⟩)
      | n + 1 => (⟨0, .atom (Bytes.toAscii (b :: rest.take n))⟩ :: (scan (n + 1) (rest.drop n)).1,
          (scan (n + 1) (rest.drop n)).2) := by
  simp only [startsAtom, Bool.and_eq_true, Bool.not_eq_true', bne_iff_ne, ne_eq] at hb
  obtain ⟨⟨⟨hblank, hcomment⟩, hopening⟩, hclosing⟩ := hb
  have hskip : skipBlanks false 0 (b :: rest) = (0, b :: rest) := by
    rw [skipBlanks]
    simp [hblank, hcomment]
  rw [scan]
  split
  · rename_i h
    rw [hskip] at h
    cases h
  · rename_i h
    rw [hskip] at h
    cases h
    cases atomLength (b :: rest) <;> simp [hopening, hclosing]

theorem cut_atom {a : Bytes} (hb : startsAtom b = true)
    (hlen : atomLength (b :: a ++ rest) = (b :: a).length) :
    cut (b :: a ++ rest) = (.atom (Bytes.toAscii (b :: a)) :: (cut rest).1, (cut rest).2) := by
  have hscan : scan 0 (b :: a ++ rest) = (⟨0, .atom (Bytes.toAscii (b :: a))⟩ ::
      (scan (a.length + 1) rest).1, (scan (a.length + 1) rest).2) := by
    rw [List.cons_append, List.length_cons] at hlen
    rw [List.cons_append, scan_of_startsAtom hb, hlen]
    simp
  rw [cut, hscan, cut_eq_scan (a.length + 1)]
  rfl

/-- Cutting ends at a byte at which no token starts. -/
theorem cut_stop (hb : startsAtom b = true) (hlen : atomLength (b :: rest) = 0) :
    cut (b :: rest) = ([], some b) := by
  rw [cut, scan_of_startsAtom hb, hlen]
  rfl

/-! ## Identifiers -/

theorem identLength_le (s : Bytes) : identLength s ≤ s.length := by
  fun_induction identLength s with grind

theorem identLength_cons (hb : isIdentByte b = true) (rest : Bytes) :
    identLength (b :: rest) = identLength rest + 1 := by
  cases rest <;> simp [identLength, hb]

theorem identLength_of_forall {s : Bytes} (h : ∀ b ∈ s, isIdentByte b = true) :
    identLength s = s.length := by
  induction s with
  | nil => rfl
  | cons b s ih =>
      rw [List.forall_mem_cons] at h
      rw [identLength_cons h.1, ih h.2, List.length_cons]

/-- A hyphen belongs to an identifier if a letter follows. -/
theorem identLength_hyphen {c : UInt8} (hb : ¬ isIdentByte b = true)
    (hc : (b == '-'.toUInt8 && isLetterByte c) = true) (rest : Bytes) :
    identLength (b :: c :: rest) = identLength rest + 2 := by
  rw [identLength, if_neg hb, if_pos hc]

/-- What continues an identifier is counted on from where the identifier ends. -/
theorem identLength_append {s : Bytes} (h : identLength s = s.length) (rest : Bytes) :
    identLength (s ++ rest) = s.length + identLength rest := by
  fun_induction identLength s with
  | case1 => simp
  | case2 b hb =>
      show identLength (b :: rest) = 1 + identLength rest
      rw [identLength_cons hb, Nat.add_comm]
  | case3 b hb => cases h
  | case4 b c s hb ih =>
      have htail := ih (by simpa using h)
      show identLength (b :: (c :: s ++ rest)) = _
      rw [identLength_cons hb, htail]
      simp only [List.length_cons]
      omega
  | case5 b c s hb hc ih =>
      have htail := ih (by simpa using h)
      show identLength (b :: c :: (s ++ rest)) = _
      rw [identLength_hyphen hb hc, htail]
      simp only [List.length_cons]
      omega
  | case6 b c s hb hc => cases h

/-- The identifier at the head of a text is one. -/
theorem identLength_take (s : Bytes) : identLength (s.take (identLength s)) = identLength s := by
  fun_induction identLength s with
  | case1 => rfl
  | case2 b hb => exact identLength_cons hb []
  | case3 b hb => rfl
  | case4 b c s hb ih => rw [List.take_succ_cons, identLength_cons hb, ih]
  | case5 b c s hb hc ih =>
      rw [List.take_succ_cons, List.take_succ_cons, identLength_hyphen hb hc, ih]
  | case6 b c s hb hc => rfl

theorem lt_of_isIdentByte : ∀ b, isIdentByte b = true → b < 128 :=
  Bytes.forall_byte (by decide +kernel)

/-- The bytes of an identifier are ASCII. -/
theorem lt_of_identLength {s : Bytes} (h : identLength s = s.length) : ∀ b ∈ s, b < 128 := by
  fun_induction identLength s with
  | case1 => simp
  | case2 b hb => simpa using lt_of_isIdentByte _ hb
  | case3 b hb => cases h
  | case4 b c s hb ih =>
      rw [List.forall_mem_cons]
      exact ⟨lt_of_isIdentByte _ hb, ih (by simpa using h)⟩
  | case5 b c s hb hc ih =>
      simp only [Bool.and_eq_true, beq_iff_eq] at hc
      have hletter : isIdentByte c = true := by simp [isIdentByte, hc.2]
      rw [List.forall_mem_cons, List.forall_mem_cons]
      exact ⟨hc.1 ▸ by decide, lt_of_isIdentByte _ hletter, ih (by simpa using h)⟩
  | case6 b c s hb hc => cases h

/-! ## Separators -/

/-- A text that does not prolong an atom before it. -/
def Separated (rest : Bytes) : Prop :=
  ∀ b ∈ rest.head?, isBlankByte b = true ∨ b = '('.toUInt8 ∨ b = ')'.toUInt8

theorem separated_cons (hb : isBlankByte b = true ∨ b = '('.toUInt8 ∨ b = ')'.toUInt8)
    (rest : Bytes) : Separated (b :: rest) := by
  intro c hc
  cases hc
  exact hb

/-- A separator belongs to no identifier, number or operator. -/
theorem separator_ends : ∀ b, isBlankByte b = true ∨ b = '('.toUInt8 ∨ b = ')'.toUInt8 →
    isIdentByte b = false ∧ b ≠ '-'.toUInt8 ∧ isDigitByte b = false ∧
      ∀ op ∈ operators, b ∉ op :=
  Bytes.forall_byte (by decide +kernel)

theorem isLetterByte_eq_false (h : isIdentByte b = false) : isLetterByte b = false := by
  simp only [isIdentByte, Bool.or_eq_false_iff] at h
  exact h.1

theorem identLength_append_separated (h : Separated rest) (s : Bytes) :
    identLength (s ++ rest) = identLength s := by
  have hrest : identLength rest = 0 := by
    cases rest with
    | nil => rfl
    | cons b rest =>
        obtain ⟨hident, hhyphen, _⟩ := separator_ends b (h b rfl)
        cases rest <;> simp [identLength, hident, hhyphen]
  fun_induction identLength s with
  | case1 => exact hrest
  | case2 b hb =>
      show identLength (b :: rest) = 1
      rw [identLength_cons hb, hrest]
  | case3 b hb =>
      -- a hyphen at the end is followed by the separator, which is no letter
      cases rest with
      | nil => simp [identLength, hb]
      | cons c rest =>
          have hc := isLetterByte_eq_false (separator_ends c (h c rfl)).1
          simp [identLength, hb, hc]
  | case4 b c s hb ih =>
      show identLength (b :: (c :: s ++ rest)) = _
      rw [identLength_cons hb, ih]
  | case5 b c s hb hc ih =>
      show identLength (b :: c :: (s ++ rest)) = _
      rw [identLength_hyphen hb hc, ih]
  | case6 b c s hb hc =>
      show identLength (b :: c :: (s ++ rest)) = 0
      rw [identLength, if_neg hb, if_neg hc]

theorem isPrefixOf_append_of_not_mem {op : Bytes} (hop : ∀ b ∈ rest.head?, b ∉ op) (s : Bytes) :
    op.isPrefixOf (s ++ rest) = op.isPrefixOf s := by
  induction op generalizing s with
  | nil => simp
  | cons c op ih =>
      cases s with
      | cons d s => rw [List.cons_append, List.isPrefixOf, List.isPrefixOf, ih (by grind)]
      | nil =>
          cases rest with
          | nil => rfl
          | cons b rest =>
              have hne : c ≠ b := fun hcb => hop b rfl (hcb ▸ List.mem_cons_self)
              simp [List.isPrefixOf, hne]

theorem find?_congr {α : Type} {p q : α → Bool} {xs : List α} (h : ∀ x ∈ xs, p x = q x) :
    xs.find? p = xs.find? q := by
  induction xs with
  | nil => rfl
  | cons x xs ih =>
      rw [List.forall_mem_cons] at h
      rw [List.find?_cons, List.find?_cons, h.1, ih h.2]

theorem takeWhile_digits_append (h : ∀ b ∈ rest.head?, isDigitByte b = false) (s : Bytes) :
    (s ++ rest).takeWhile isDigitByte = s.takeWhile isDigitByte := by
  induction s with
  | nil =>
      cases rest with
      | nil => rfl
      | cons b rest => simp [h b rfl]
  | cons b s ih => rw [List.cons_append, List.takeWhile_cons, List.takeWhile_cons, ih]

/-- A separator does not change the atom before it. -/
theorem atomLength_append_separated (h : Separated rest) {s : Bytes} (hs : s ≠ []) :
    atomLength (s ++ rest) = atomLength s := by
  obtain ⟨b, s, rfl⟩ := List.exists_cons_of_ne_nil hs
  have hdigit : ∀ c ∈ rest.head?, isDigitByte c = false :=
    fun c hc => (separator_ends c (h c hc)).2.2.1
  have hhead : (s ++ rest).head?.any isDigitByte = s.head?.any isDigitByte := by
    cases s with
    | cons c s => rfl
    | nil =>
        cases rest with
        | nil => rfl
        | cons c rest => exact hdigit c rfl
  have hfind : operators.find? (·.isPrefixOf (b :: (s ++ rest))) =
      operators.find? (·.isPrefixOf (b :: s)) := by
    refine find?_congr fun op hop => ?_
    exact isPrefixOf_append_of_not_mem
      (fun c hc => (separator_ends c (h c hc)).2.2.2 op hop) (b :: s)
  rw [List.cons_append, atomLength, atomLength, identLength_append_separated h, hhead,
    takeWhile_digits_append hdigit, hfind]

/-! ## Atoms -/

/-- A string that is one atom. -/
structure IsAtom (t : String) : Prop where
  ascii : Bytes.toAscii (Bytes.ofString t) = t
  start : (Bytes.ofString t).head?.any startsAtom = true
  length : atomLength (Bytes.ofString t) = (Bytes.ofString t).length

instance (t : String) : Decidable (IsAtom t) :=
  decidable_of_iff (Bytes.toAscii (Bytes.ofString t) = t ∧
      (Bytes.ofString t).head?.any startsAtom = true ∧
      atomLength (Bytes.ofString t) = (Bytes.ofString t).length)
    ⟨fun h => ⟨h.1, h.2.1, h.2.2⟩, fun h => ⟨h.ascii, h.start, h.length⟩⟩

/-- An atom is cut as one before whatever does not prolong it. -/
theorem IsAtom.cut_of_atomLength {t : String} (h : IsAtom t)
    (hlength : atomLength (Bytes.ofString t ++ rest) = (Bytes.ofString t).length) :
    cut (Bytes.ofString t ++ rest) = (.atom t :: (cut rest).1, (cut rest).2) := by
  have hstart := h.start
  have hascii := h.ascii
  cases hbytes : Bytes.ofString t with
  | nil =>
      rw [hbytes] at hstart
      cases hstart
  | cons b a =>
      rw [hbytes] at hstart hlength hascii
      rw [cut_atom hstart hlength, hascii]

/-- An atom is cut as one before a separator. -/
theorem IsAtom.cut_append {t : String} (h : IsAtom t) (hrest : Separated rest) :
    cut (Bytes.ofString t ++ rest) = (.atom t :: (cut rest).1, (cut rest).2) := by
  refine h.cut_of_atomLength ?_
  rw [atomLength_append_separated hrest, h.length]
  intro hnil
  have hstart := h.start
  rw [hnil] at hstart
  cases hstart

/-! ## Kinds of atoms -/

/-- The bytes of an atom, by kind. -/
inductive AtomBytes : Bytes → Prop
  | ident {b : UInt8} {a : Bytes} : (b == ':'.toUInt8 || isIdentByte b) = true →
      identLength a = a.length → AtomBytes (b :: a)
  | numeral {b : UInt8} {a : Bytes} : (b == '-'.toUInt8 || b == '+'.toUInt8) = true → a ≠ [] →
      (∀ c ∈ a, isDigitByte c = true) → AtomBytes (b :: a)
  | operator {op : Bytes} : op ∈ operators → AtomBytes op

theorem takeWhile_of_forall {s : Bytes} (h : ∀ c ∈ s, isDigitByte c = true) :
    s.takeWhile isDigitByte = s := by
  have happend : (s ++ []).takeWhile isDigitByte = s ++ [] := List.takeWhile_append_of_pos h
  rwa [List.append_nil] at happend

/-- What is cut off at the head of a text is of one of these kinds. -/
theorem atomBytes_take {s : Bytes} (h : atomLength s ≠ 0) : AtomBytes (s.take (atomLength s)) := by
  cases s with
  | nil => exact absurd rfl h
  | cons b s =>
      rw [atomLength] at h ⊢
      split
      · rename_i hb
        refine .ident hb ?_
        rw [identLength_take, List.length_take, Nat.min_eq_left (identLength_le s)]
      · split
        · rename_i hsign
          rw [Bool.and_eq_true] at hsign
          have hprefix : s.take (s.takeWhile isDigitByte).length = s.takeWhile isDigitByte :=
            (List.prefix_iff_eq_take.mp (List.takeWhile_prefix _)).symm
          rw [List.take_succ_cons, hprefix]
          refine .numeral hsign.1 ?_ fun c hc => ?_
          · cases s with
            | nil => cases hsign.2
            | cons c s =>
                have hc : isDigitByte c = true := hsign.2
                simp [hc]
          · exact List.all_eq_true.mp List.all_takeWhile c hc
        · split
          · rename_i op hfind
            have hfound := List.find?_some hfind
            have hprefix : op <+: b :: s := List.isPrefixOf_iff_prefix.mp hfound
            rw [← List.prefix_iff_eq_take.mp hprefix]
            exact .operator (List.mem_of_find?_eq_some hfind)
          · rename_i hident hsign _ hfind
            rw [if_neg hident, if_neg hsign, hfind] at h
            exact absurd rfl h

/-- A numeral with a sign ends before what is no digit. -/
theorem atomLength_numeral {a : Bytes} (rest : Bytes)
    (hb : (b == '-'.toUInt8 || b == '+'.toUInt8) = true) (hne : a ≠ [])
    (ha : ∀ c ∈ a, isDigitByte c = true) (hrest : ∀ c ∈ rest.head?, isDigitByte c = false) :
    atomLength (b :: a ++ rest) = (b :: a).length := by
  have hsign : ∀ b : UInt8, (b == '-'.toUInt8 || b == '+'.toUInt8) = true →
      (b == ':'.toUInt8 || isIdentByte b) = false := Bytes.forall_byte (by decide +kernel)
  have hhead : (a ++ rest).head?.any isDigitByte = true := by
    obtain ⟨c, a, rfl⟩ := List.exists_cons_of_ne_nil hne
    exact ha c List.mem_cons_self
  rw [List.cons_append, atomLength, hsign b hb, if_neg (by decide), hb, hhead, if_pos (by decide),
    takeWhile_digits_append hrest, takeWhile_of_forall ha]
  rfl

theorem lt_of_isDigitByte : ∀ b, isDigitByte b = true → b < 128 :=
  Bytes.forall_byte (by decide +kernel)

namespace AtomBytes

variable {s : Bytes}

theorem of_isAtom {t : String} (h : IsAtom t) : AtomBytes (Bytes.ofString t) := by
  have hlength := h.length
  have hne : atomLength (Bytes.ofString t) ≠ 0 := by
    intro hzero
    rw [hzero] at hlength
    have hstart := h.start
    rw [List.eq_nil_of_length_eq_zero hlength.symm] at hstart
    cases hstart
  have htake := atomBytes_take hne
  rwa [hlength, List.take_length] at htake

theorem start (h : AtomBytes s) : s.head?.any startsAtom = true := by
  have hsign : ∀ b : UInt8, (b == '-'.toUInt8 || b == '+'.toUInt8) = true → startsAtom b = true :=
    Bytes.forall_byte (by decide +kernel)
  have hident : ∀ b : UInt8, (b == ':'.toUInt8 || isIdentByte b) = true → startsAtom b = true :=
    Bytes.forall_byte (by decide +kernel)
  have hops : ∀ op ∈ operators, op.head?.any startsAtom = true := by decide
  cases h with
  | ident hb _ => exact hident _ hb
  | numeral hb _ _ => exact hsign _ hb
  | operator hop => exact hops s hop

theorem lt (h : AtomBytes s) : ∀ b ∈ s, b < 128 := by
  have hsign : ∀ b : UInt8, (b == '-'.toUInt8 || b == '+'.toUInt8) = true → b < 128 :=
    Bytes.forall_byte (by decide +kernel)
  have hident : ∀ b : UInt8, (b == ':'.toUInt8 || isIdentByte b) = true → b < 128 :=
    Bytes.forall_byte (by decide +kernel)
  have hops : ∀ op ∈ operators, ∀ b ∈ op, b < 128 := by decide +kernel
  cases h with
  | ident hb ha => exact List.forall_mem_cons.mpr ⟨hident _ hb, lt_of_identLength ha⟩
  | numeral hb _ ha =>
      exact List.forall_mem_cons.mpr ⟨hsign _ hb, fun c hc => lt_of_isDigitByte c (ha c hc)⟩
  | operator hop => exact hops s hop

theorem length (h : AtomBytes s) : atomLength s = s.length := by
  have hops : ∀ op ∈ operators, atomLength op = op.length := by decide
  cases h with
  | ident hb ha =>
      rw [atomLength, if_pos hb, ha]
      rfl
  | numeral hb hne ha =>
      have hnil := atomLength_numeral [] hb hne ha (by simp)
      rwa [List.append_nil] at hnil
  | operator hop => exact hops s hop

theorem isAtom (h : AtomBytes s) : IsAtom (Bytes.toAscii s) := by
  have hbytes := Bytes.ofString_toAscii h.lt
  exact ⟨by rw [hbytes], by rw [hbytes]; exact h.start, by rw [hbytes]; exact h.length⟩

end AtomBytes

/-! ## Operators without a blank -/

/-- The operators that are written right after an operand. -/
def gluedOps : List String := ["++", "--"]

/-- What follows a text that is as long as an operator does not matter for finding it. -/
theorem isPrefixOf_append_of_length_le {op s : Bytes} (h : op.length ≤ s.length) (rest : Bytes) :
    op.isPrefixOf (s ++ rest) = op.isPrefixOf s := by
  induction op generalizing s with
  | nil => simp
  | cons c op ih =>
      cases s with
      | nil => cases h
      | cons d s =>
          rw [List.cons_append, List.isPrefixOf, List.isPrefixOf, ih (Nat.le_of_succ_le_succ h)]

/-- An operator is found before one of these, unless a longer one is. -/
theorem find?_operator_glued {op : Bytes} (hop : op ∈ operators) {t : String} (ht : t ∈ gluedOps)
    (hne : op = Bytes.ofString "<" → t ≠ "--") (rest : Bytes) :
    operators.find? (·.isPrefixOf (op ++ (Bytes.ofString t ++ rest))) = some op := by
  have hlong : ∀ t ∈ gluedOps, ∀ op ∈ operators, ∀ op' ∈ operators,
      op'.length ≤ (op ++ Bytes.ofString t).length := by decide
  have hfind : ∀ t ∈ gluedOps, ∀ op ∈ operators, (op = Bytes.ofString "<" → t ≠ "--") →
      operators.find? (·.isPrefixOf (op ++ Bytes.ofString t)) = some op := by decide
  rw [← hfind t ht op hop hne, ← List.append_assoc]
  exact find?_congr fun op' hop' =>
    isPrefixOf_append_of_length_le (hlong t ht op hop op' hop') rest

/-- One of these does not prolong the atom before it, unless both make up a longer operator. -/
theorem AtomBytes.atomLength_append_glued {s : Bytes} (h : AtomBytes s) {t : String}
    (ht : t ∈ gluedOps) (hne : s = Bytes.ofString "<" → t ≠ "--") (rest : Bytes) :
    atomLength (s ++ (Bytes.ofString t ++ rest)) = s.length := by
  -- they start with a sign, which is no digit and continues no identifier
  obtain ⟨c, hc, htext⟩ : ∃ c ∈ ['+'.toUInt8, '-'.toUInt8], Bytes.ofString t = [c, c] := by
    simp only [gluedOps, List.mem_cons, List.not_mem_nil, or_false] at ht
    rcases ht with rfl | rfl
    · exact ⟨'+'.toUInt8, by decide, rfl⟩
    · exact ⟨'-'.toUInt8, by decide, rfl⟩
  have hsign : ∀ c ∈ ['+'.toUInt8, '-'.toUInt8], isIdentByte c = false ∧ isDigitByte c = false ∧
      isLetterByte c = false := by decide +kernel
  obtain ⟨hident, hdigit, hletter⟩ := hsign c hc
  cases h with
  | @ident b a hb ha =>
      have hends : identLength (Bytes.ofString t ++ rest) = 0 := by
        rw [htext]
        simp [identLength, hident, hletter]
      rw [List.cons_append, atomLength, if_pos hb, identLength_append ha, hends]
      rfl
  | numeral hb hnil ha =>
      refine atomLength_numeral _ hb hnil ha ?_
      rw [htext]
      rintro d ⟨⟩
      exact hdigit
  | operator hop =>
      have hfirst : ∀ t ∈ gluedOps, ∀ op ∈ operators, 2 ≤ (op ++ Bytes.ofString t).length ∧
          (op ++ Bytes.ofString t).head?.any (fun b => b == ':'.toUInt8 || isIdentByte b) = false ∧
          (op ++ Bytes.ofString t).tail.head?.any isDigitByte = false := by decide
      obtain ⟨hlen, hb, hd⟩ := hfirst t ht s hop
      obtain ⟨b, d, a, happend⟩ : ∃ b d a, s ++ Bytes.ofString t = b :: d :: a :=
        match s ++ Bytes.ofString t, hlen with
        | b :: d :: a, _ => ⟨b, d, a, rfl⟩
      rw [happend] at hb hd
      have hfind := find?_operator_glued hop ht hne rest
      rw [← List.append_assoc, happend, List.cons_append, List.cons_append] at hfind ⊢
      have hb : (b == ':'.toUInt8 || isIdentByte b) = false := hb
      have hd : (d :: (a ++ rest)).head?.any isDigitByte = false := hd
      rw [atomLength, hb, hd, Bool.and_false, if_neg (by decide), if_neg (by decide), hfind]

theorem IsAtom.cut_append_glued {x t : String} (h : IsAtom x) (ht : t ∈ gluedOps)
    (hne : x = "<" → t ≠ "--") (rest : Bytes) :
    cut (Bytes.ofString x ++ (Bytes.ofString t ++ rest)) =
      (.atom x :: (cut (Bytes.ofString t ++ rest)).1, (cut (Bytes.ofString t ++ rest)).2) := by
  refine h.cut_of_atomLength ((AtomBytes.of_isAtom h).atomLength_append_glued ht ?_ rest)
  intro hx
  refine hne ?_
  rw [← h.ascii, hx]
  decide

/-! ## Spelling -/

/-- What stands between a closed list or an atom and the lexemes that follow. -/
def gap : List Lexeme → String
  | [] => ""
  | .closing :: _ => ""
  | _ => " "

/-- Lexemes with single blanks where they are needed. -/
def spell : List Lexeme → String
  | [] => ""
  | .opening :: ls => "(" ++ spell ls
  | .closing :: ls => ")" ++ (gap ls ++ spell ls)
  | .atom t :: ls => t ++ (gap ls ++ spell ls)

theorem cut_gap (ls : List Lexeme) (rest : Bytes) :
    cut (Bytes.ofString (gap ls) ++ rest) = cut rest := by
  unfold gap
  split
  · rfl
  · rfl
  · exact cut_blank (by decide) rest

theorem separated_gap (hrest : Separated rest) (ls : List Lexeme) :
    Separated (Bytes.ofString (gap ls ++ spell ls) ++ rest) := by
  rw [Bytes.ofString_append, List.append_assoc]
  cases ls with
  | nil => exact hrest
  | cons l ls =>
      cases l with
      | closing =>
          rw [spell, Bytes.ofString_append, List.append_assoc]
          exact separated_cons (by decide) _
      | opening | atom =>
          show Separated (Bytes.ofString " " ++ _)
          exact separated_cons (by decide) _

/-- What is spelled from atoms is cut into the same lexemes. -/
theorem cut_spell {ls : List Lexeme} (h : ∀ t, .atom t ∈ ls → IsAtom t) (hrest : Separated rest) :
    cut (Bytes.ofString (spell ls) ++ rest) = (ls ++ (cut rest).1, (cut rest).2) := by
  induction ls with
  | nil => rfl
  | cons l ls ih =>
      have htail := ih fun t ht => h t (List.mem_cons_of_mem _ ht)
      cases l with
      | opening =>
          rw [spell, Bytes.ofString_append]
          show cut ('('.toUInt8 :: (Bytes.ofString (spell ls) ++ rest)) = _
          rw [cut_opening, htail]
          rfl
      | closing =>
          rw [spell, Bytes.ofString_append]
          show cut (')'.toUInt8 :: (Bytes.ofString (gap ls ++ spell ls) ++ rest)) = _
          rw [cut_closing, Bytes.ofString_append, List.append_assoc, cut_gap, htail]
          rfl
      | atom t =>
          rw [spell, Bytes.ofString_append, List.append_assoc,
            (h t List.mem_cons_self).cut_append (separated_gap hrest ls), Bytes.ofString_append,
            List.append_assoc, cut_gap, htail]
          rfl

end Token

end Spillway
