import Spillway.Proofs.Source.Reading

/-!
# Programs that have been read

An instruction that has been read consists of atoms of its tree (`Source.ReadFrom`,
`Source.instr_readFrom`), and an atom of a text is one on its own (`Token.isAtom_of_scan`). So the
labels of a program that has been read can be written and read again (`Program.labels_of_parse`),
and so can its instructions if they are well formed, but for one that would run together
(`Program.readable_of_parse`).
-/

namespace Spillway

/-! ## Atoms of a text -/

namespace Token

/-- How an atom has been cut. -/
theorem atom_of_scan {o o' : Nat} {text : Bytes} {a : String}
    (h : ⟨o', .atom a⟩ ∈ (scan o text).1) :
    ∃ b rest n, a = Bytes.toAscii (b :: rest.take n) ∧ atomLength (b :: rest) = n + 1 := by
  induction hn : text.length using Nat.strongRecOn generalizing o text with
  | ind n ih =>
      -- what is left after a lexeme is shorter than the text
      have hle := length_skipBlanks_le false o text
      rw [scan] at h
      split at h
      · cases h
      · rename_i start b rest hskip
        rw [hskip] at hle
        have hlt : rest.length < n := by
          rw [← hn]
          exact hle
        split at h
        · rcases List.mem_cons.mp h with h | h
          · cases h
          · exact ih _ hlt h rfl
        · split at h
          · rcases List.mem_cons.mp h with h | h
            · cases h
            · exact ih _ hlt h rfl
          · split at h
            · cases h
            · rename_i k hk
              rcases List.mem_cons.mp h with h | h
              · cases h
                exact ⟨b, rest, k, rfl, hk⟩
              · have hdrop : (rest.drop k).length < n := by
                  rw [List.length_drop]
                  omega
                exact ih _ hdrop h rfl

theorem isAtom_of_scan {o o' : Nat} {text : Bytes} {a : String}
    (h : ⟨o', .atom a⟩ ∈ (scan o text).1) : IsAtom a := by
  obtain ⟨b, rest, n, rfl, hlength⟩ := atom_of_scan h
  have hbytes := atomBytes_take (s := b :: rest) (by omega)
  rw [hlength, List.take_succ_cons] at hbytes
  exact hbytes.isAtom

end Token

/-! ## Operands of a tree -/

namespace Tree

variable {t : Tree} {x : Operand} {v : Var}

/-- Some atom of the tree stands for the operand. -/
def Names (t : Tree) (x : Operand) : Prop :=
  ∃ a, t.HasAtom a ∧ ((atom 0 a).operand = x ∨ (atom 0 a).callee = x)

theorem names_operand (h : t.operand ≠ .hole) : t.Names t.operand := by
  cases t with
  | list o items => exact absurd rfl h
  | atom o a => exact ⟨a, hasAtom_atom.mpr rfl, .inl rfl⟩

theorem names_callee (h : t.callee ≠ .hole) : t.Names t.callee := by
  cases t with
  | list o items => exact absurd rfl h
  | atom o a => exact ⟨a, hasAtom_atom.mpr rfl, .inr rfl⟩

theorem names_list {o : Nat} {items : List Tree} :
    (list o items).Names x ↔ ∃ t ∈ items, t.Names x := by
  simp only [Names, hasAtom_list]
  grind

theorem Names.readable (h : t.Names x) (hatoms : ∀ a, t.HasAtom a → Token.IsAtom a) :
    x.Readable := by
  obtain ⟨a, ha, hx | hx⟩ := h
  · exact hx ▸ readable_operand (hatoms a ha) 0
  · exact hx ▸ readable_callee (hatoms a ha) 0

/-- A variable has the name with which it was written. -/
theorem text?_of_operand (h : t.operand = .var v) : t.text? = some v.name := by
  cases t with
  | list o items => cases h
  | atom o a =>
      unfold operand at h
      simp only at h
      split at h
      · cases h
      · split at h
        · cases h
        · split at h <;> cases h
          rfl

theorem not_mem_runtimeNames_of_callee (h : t.callee = .var v) : v.name ∉ runtimeNames := by
  cases t with
  | list o items => cases h
  | atom o a =>
      have h : (if a ∈ runtimeNames then .runtime a else (atom o a).operand) = .var v := h
      split at h
      · cases h
      · rename_i hnot
        have htext := text?_of_operand h
        cases htext
        exact hnot

end Tree

/-! ## Instructions -/

namespace Source

variable {src : Source} {t cell head : Tree} {args items ts : List Tree} {i : Instr} {l : Label}
  {dst base x : Operand} {off : Int64} {op : String} {o a : Nat}

theorem label_eq_ok (h : src.label t = .ok l) : t.HasAtom l.text ∧ l.name ≠ "" := by
  unfold label at h
  split at h
  · rename_i c name htext
    cases h
    cases t with
    | list o items => cases htext
    | atom o s =>
        have hs : s.toList = ':' :: c :: name := Option.some.inj htext
        refine ⟨?_, by simp⟩
        rw [Tree.hasAtom_atom]
        apply String.toList_injective
        rw [Label.toList_text, hs, String.toList_ofList]
  · cases h

theorem mem_eq_ok (h : src.mem t = .ok (base, off)) (hbase : base ≠ .hole) : t.Names base := by
  unfold mem at h
  split at h
  · rename_i o a s n
    obtain ⟨_, _, h⟩ := bind_eq_ok.mp h
    cases h
    rw [Tree.names_list]
    exact ⟨s, by simp, Tree.names_operand hbase⟩
  · cases h

/-- The instruction changes `dst`, and its other operands stand in the arguments. -/
structure Updates (dst : Operand) (args : List Tree) (i : Instr) : Prop where
  dest : i.dest? = some dst
  slots : ∀ x ∈ i.slots, x ≠ .hole → x = dst ∨ ∃ t ∈ args, t.Names x

/-- The operands are `dst` and those of some arguments. -/
theorem updates_of_slots (ts : List Tree) (hdest : i.dest? = some dst)
    (hslots : i.slots = dst :: ts.map Tree.operand) (hts : ∀ t ∈ ts, t ∈ args) :
    Updates dst args i := by
  refine ⟨hdest, fun x hx hne => ?_⟩
  rw [hslots, List.mem_cons, List.mem_map] at hx
  rcases hx with rfl | ⟨t, ht, rfl⟩
  · exact .inl rfl
  · exact .inr ⟨t, hts t ht, Tree.names_operand hne⟩

/-- The operands are `dst` and the base of a memory cell. -/
theorem updates_of_mem (hmem : src.mem t = .ok (base, off)) (ht : t ∈ args)
    (hdest : i.dest? = some dst) (hslots : i.slots = [dst, base]) : Updates dst args i := by
  refine ⟨hdest, fun x hx hne => ?_⟩
  rw [hslots, List.mem_cons, List.mem_singleton] at hx
  rcases hx with rfl | rfl
  · exact .inl rfl
  · exact .inr ⟨t, ht, mem_eq_ok hmem hne⟩

theorem moveFrom_updates (h : src.moveFrom dst t = .ok i) (ht : t ∈ args) :
    Updates dst args i := by
  unfold moveFrom at h
  split at h
  · obtain ⟨_, _, h⟩ := bind_eq_ok.mp h
    cases h
    exact updates_of_slots [] rfl rfl (by simp)
  · obtain ⟨⟨base, off⟩, hmem, h⟩ := bind_eq_ok.mp h
    cases h
    exact updates_of_mem hmem ht rfl rfl

theorem arith_updates {op : Op} (h : src.arith o op dst args = .ok i) : Updates dst args i := by
  unfold arith at h
  split at h
  · rename_i o' s
    cases h
    exact updates_of_slots [.atom o' s] rfl rfl (by simp)
  · obtain ⟨⟨base, off⟩, hmem, h⟩ := bind_eq_ok.mp h
    cases h
    exact updates_of_mem hmem (by simp) rfl rfl
  · cases h

theorem shift_updates {op : Op} (h : src.shift o op dst args = .ok i) : Updates dst args i := by
  unfold shift at h
  split at h
  · rename_i x
    cases h
    exact updates_of_slots [x] rfl rfl (by simp)
  · cases h

theorem update_updates (h : src.update o dst a op args = .ok i) : Updates dst args i := by
  unfold update at h
  split at h
  · split at h <;> cases h
    exact updates_of_slots [] rfl rfl (by simp)
  · split at h <;> cases h
    exact updates_of_slots [] rfl rfl (by simp)
  · split at h
    · rename_i o' s
      cases h
      exact updates_of_slots [.atom o' s] rfl rfl (by simp)
    · exact moveFrom_updates h (by simp)
    · rename_i x c y
      obtain ⟨_, _, h⟩ := bind_eq_ok.mp h
      cases h
      exact updates_of_slots [x, y] rfl rfl (by simp)
    · cases h
  · split at h
    · rename_i x y n
      obtain ⟨_, _, h⟩ := bind_eq_ok.mp h
      cases h
      exact updates_of_slots [x, y] rfl rfl (by simp)
    · cases h
  · exact shift_updates h
  · exact shift_updates h
  · exact arith_updates h
  · exact arith_updates h
  · exact arith_updates h
  · exact arith_updates h
  · cases h

/-- What an instruction that has been read consists of, where `ts` are the trees in its
parentheses. -/
structure ReadFrom (ts : List Tree) (i : Instr) : Prop where
  slots : ∀ x ∈ i.slots, x ≠ .hole → ∃ t ∈ ts, t.Names x
  labels : ∀ l, l ∈ i.targets ∨ i.label? = some l → ∃ t ∈ ts, t.HasAtom l.text
  dest : ∀ v, i.dest? = some (.var v) → v.name ∉ keywords
  callee : ∀ v n, i = .call (.var v) n → v.name ∉ runtimeNames

theorem ReadFrom.mono {ts' : List Tree} (h : ReadFrom ts i) (hts : ∀ t ∈ ts, t ∈ ts') :
    ReadFrom ts' i where
  slots x hx hne := by
    obtain ⟨t, ht, hnames⟩ := h.slots x hx hne
    exact ⟨t, hts t ht, hnames⟩
  labels l hl := by
    obtain ⟨t, ht, hatom⟩ := h.labels l hl
    exact ⟨t, hts t ht, hatom⟩
  dest := h.dest
  callee := h.callee

/-- An instruction that changes an operand starts with it, and not with a keyword. -/
theorem Updates.readFrom (h : Updates head.operand args i)
    (hhead : ∀ t, head.text? = some t → t ∉ keywords) : ReadFrom (head :: args) i where
  slots x hx hne := by
    rcases h.slots x hx hne with rfl | ⟨t, ht, hnames⟩
    · exact ⟨head, List.mem_cons_self, Tree.names_operand hne⟩
    · exact ⟨t, List.mem_cons_of_mem _ ht, hnames⟩
  labels l hl := by
    have hdest := h.dest
    cases i <;> simp_all [Instr.targets, Instr.label?, Instr.dest?]
  dest v hv := by
    rw [h.dest, Option.some.injEq] at hv
    exact hhead v.name (Tree.text?_of_operand hv)
  callee v n hi := by
    have hdest := h.dest
    rw [hi] at hdest
    cases hdest

theorem memUpdate_readFrom (h : src.memUpdate o cell a op args = .ok i) :
    ReadFrom (cell :: args) i := by
  obtain ⟨⟨base, off⟩, hmem, hargs⟩ := bind_eq_ok.mp h
  clear h
  simp only at hargs
  split at hargs
  · rename_i y
    have hslots : ∀ x ∈ [base, y.operand], x ≠ .hole → ∃ t ∈ [cell, y], t.Names x := by
      intro x hx hne
      rw [List.mem_cons, List.mem_singleton] at hx
      rcases hx with rfl | rfl
      · exact ⟨cell, by simp, mem_eq_ok hmem hne⟩
      · exact ⟨y, by simp, Tree.names_operand hne⟩
    split at hargs <;> cases hargs <;>
      exact ⟨hslots, by simp [Instr.targets, Instr.label?], by simp [Instr.dest?], by simp⟩
  · cases hargs

theorem operation_readFrom (h : src.operation o head items = .ok i)
    (hhead : ∀ t, head.text? = some t → t ∉ keywords) : ReadFrom (head :: items) i := by
  unfold operation at h
  split at h
  · rename_i a op args
    have hread : ReadFrom (head :: args) i := by
      split at h
      · exact memUpdate_readFrom h
      · exact (update_updates h).readFrom hhead
    exact hread.mono (by simp +contextual)
  · cases h

theorem form_readFrom (h : src.form o head items = .ok i) : ReadFrom (head :: items) i := by
  unfold form at h
  split at h
  · split at h <;> cases h
    exact ⟨by simp [Instr.slots], by simp [Instr.targets, Instr.label?], by simp [Instr.dest?],
      by simp⟩
  · split at h
    · rename_i t
      obtain ⟨target, htarget, h⟩ := bind_eq_ok.mp h
      cases h
      refine ⟨by simp [Instr.slots], fun l hl => ?_, by simp [Instr.dest?], by simp⟩
      obtain rfl : l = target := by simpa [Instr.targets, Instr.label?] using hl
      exact ⟨t, by simp, (label_eq_ok htarget).1⟩
    · cases h
  · split at h
    · rename_i x c y yes no
      obtain ⟨_, _, h⟩ := bind_eq_ok.mp h
      obtain ⟨yes', hyes, h⟩ := bind_eq_ok.mp h
      obtain ⟨no', hno, h⟩ := bind_eq_ok.mp h
      cases h
      refine ⟨fun z hz hne => ?_, fun l hl => ?_, by simp [Instr.dest?], by simp⟩
      · have hz : z = x.operand ∨ z = y.operand := by simpa [Instr.slots] using hz
        rcases hz with rfl | rfl
        · exact ⟨x, by simp, Tree.names_operand hne⟩
        · exact ⟨y, by simp, Tree.names_operand hne⟩
      · have hl : l = yes' ∨ l = no' := by simpa [Instr.targets, Instr.label?] using hl
        rcases hl with rfl | rfl
        · exact ⟨yes, by simp, (label_eq_ok hyes).1⟩
        · exact ⟨no, by simp, (label_eq_ok hno).1⟩
    · cases h
  · split at h
    · rename_i u n
      obtain ⟨_, _, h⟩ := bind_eq_ok.mp h
      cases h
      refine ⟨fun z hz hne => ?_, by simp [Instr.targets, Instr.label?], by simp [Instr.dest?],
        fun v n hcall => ?_⟩
      · obtain rfl : z = u.callee := by simpa [Instr.slots] using hz
        exact ⟨u, by simp, Tree.names_callee hne⟩
      · exact Tree.not_mem_runtimeNames_of_callee (Instr.call.inj hcall).1
    · cases h
  · rename_i hreturn hgoto hcjump hcall
    refine operation_readFrom h fun t ht hmem => ?_
    simp only [keywords, List.mem_cons, List.not_mem_nil, or_false] at hmem
    rcases hmem with rfl | rfl | rfl | rfl
    · exact hreturn ht
    · exact hgoto ht
    · exact hcjump ht
    · exact hcall ht

/-- The trees of which an instruction consists are its own parts. -/
theorem instr_readFrom (h : src.instr t = .ok i) :
    ∃ ts, ReadFrom ts i ∧ ∀ s ∈ ts, ∀ a, s.HasAtom a → t.HasAtom a := by
  unfold instr at h
  split at h
  · cases h
  · rename_i o head items
    exact ⟨_, form_readFrom h, fun s hs a ha => Tree.hasAtom_list.mpr ⟨s, hs, ha⟩⟩
  · obtain ⟨l', hlabel, h⟩ := bind_eq_ok.mp h
    cases h
    refine ⟨[t], ⟨by simp [Instr.slots], fun l hl => ?_, by simp [Instr.dest?], by simp⟩, by simp⟩
    obtain rfl : l' = l := by simpa [Instr.targets, Instr.label?] using hl
    exact ⟨t, by simp, (label_eq_ok (inContext_eq_ok.mp hlabel)).1⟩

/-- The labels of an instruction can be written if the atoms of its tree can be cut. -/
theorem instr_labels (h : src.instr t = .ok i) (hatoms : ∀ a, t.HasAtom a → Token.IsAtom a)
    (hl : i.HasLabel l) : l.Readable := by
  obtain ⟨ts, hread, hts⟩ := instr_readFrom h
  rcases hl with hslot | hrest
  · obtain ⟨s, hs, hnames⟩ := hread.slots _ hslot (by simp)
    exact hnames.readable fun a ha => hatoms a (hts s hs a ha)
  · obtain ⟨s, hs, ha⟩ := hread.labels l hrest
    exact hatoms _ (hts s hs _ ha)

/-- So can the instruction if it is well formed and does not run together. -/
theorem instr_readable (h : src.instr t = .ok i) (hatoms : ∀ a, t.HasAtom a → Token.IsAtom a)
    (hwf : i.WellFormed) (hglued : i ≠ .dec (.var ⟨"<"⟩)) : i.Readable := by
  obtain ⟨ts, hread, hts⟩ := instr_readFrom h
  refine ⟨hwf, fun x hx => ?_, fun l hl => ?_, hread.dest, hread.callee, hglued⟩
  · have hne : x ≠ .hole := by
      rintro rfl
      exact hwf.known _ hx
    obtain ⟨s, hs, hnames⟩ := hread.slots x hx hne
    exact hnames.readable fun a ha => hatoms a (hts s hs a ha)
  · exact instr_labels h hatoms (.inr hl)

/-! ## Functions and programs -/

/-- What has been read from trees comes from one of them. -/
theorem exists_of_mapM {α : Type} {read : Tree → Except Error α} {ts : List Tree} {xs : List α}
    (h : ts.mapM read = .ok xs) {x : α} (hx : x ∈ xs) : ∃ t ∈ ts, read t = .ok x := by
  have hmem : Except.ok x ∈ ts.map read := by
    rw [mapM_eq_ok.mp h]
    exact List.mem_map_of_mem hx
  exact List.mem_map.mp hmem

theorem func_eq_ok {f : Func} (h : src.func t = .ok f) :
    f.name.name ≠ "" ∧ t.HasAtom f.name.text ∧
      ∀ i ∈ f.code, ∃ s, src.instr s = .ok i ∧ ∀ a, s.HasAtom a → t.HasAtom a := by
  unfold func at h
  split at h
  · rename_i o name args locals code
    obtain ⟨name', hname, h⟩ := bind_eq_ok.mp h
    obtain ⟨_, _, h⟩ := bind_eq_ok.mp h
    obtain ⟨_, _, h⟩ := bind_eq_ok.mp h
    obtain ⟨code', hcode, h⟩ := bind_eq_ok.mp h
    cases h
    obtain ⟨hatom, hne⟩ := label_eq_ok (inContext_eq_ok.mp hname)
    refine ⟨hne, Tree.hasAtom_list.mpr ⟨name, by simp, hatom⟩, fun i hi => ?_⟩
    obtain ⟨s, hs, hread⟩ := exists_of_mapM hcode hi
    exact ⟨s, inContext_eq_ok.mp hread, fun a ha => Tree.hasAtom_list.mpr ⟨s, by simp [hs], ha⟩⟩
  · cases h

theorem program_eq_ok {p : Program} (h : src.program t = .ok p) :
    (p.entry.name ≠ "" ∧ t.HasAtom p.entry.text) ∧ p.funcs ≠ [] ∧
      ∀ f ∈ p.funcs, ∃ s, src.func s = .ok f ∧ ∀ a, s.HasAtom a → t.HasAtom a := by
  unfold program at h
  split at h
  · rename_i o entry f fs
    obtain ⟨entry', hentry, h⟩ := bind_eq_ok.mp h
    obtain ⟨funcs, hfuncs, h⟩ := bind_eq_ok.mp h
    cases h
    obtain ⟨hatom, hne⟩ := label_eq_ok (inContext_eq_ok.mp hentry)
    refine ⟨⟨hne, Tree.hasAtom_list.mpr ⟨entry, by simp, hatom⟩⟩, ?_, fun g hg => ?_⟩
    · rintro rfl
      have hmap := mapM_eq_ok.mp hfuncs
      cases hmap
    · obtain ⟨s, hs, hread⟩ := exists_of_mapM hfuncs hg
      exact ⟨s, hread, fun a ha => Tree.hasAtom_list.mpr ⟨s, List.mem_cons_of_mem _ hs, ha⟩⟩
  · cases h

/-- A program is read from a tree of atoms. -/
theorem tree_eq_ok {extra : SyntaxFault} (h : src.tree extra = .ok t) :
    ∀ a, t.HasAtom a → Token.IsAtom a := by
  intro a ha
  unfold Source.tree at h
  simp only at h
  split at h
  · cases h
  · rename_i t' rest hbuild
    obtain rfl : t = t' := by
      split at h <;> cases h
      rfl
    rcases Tree.atom_of_build hbuild ha with ⟨o, ho⟩ | ⟨_, hnil, _⟩
    · exact Token.isAtom_of_scan ho
    · cases hnil

end Source

namespace Program

variable {name : String} {text : Bytes} {p : Program}

/-- The instructions of a program that has been read come from trees of atoms. -/
theorem parse_eq_ok (h : Program.parse name text = .ok p) :
    (p.entry.name ≠ "" ∧ p.entry.Readable) ∧ p.funcs ≠ [] ∧
      ∀ f ∈ p.funcs, (f.name.name ≠ "" ∧ f.name.Readable) ∧ ∀ i ∈ f.code, ∃ src t,
        Source.instr src t = .ok i ∧ ∀ a, t.HasAtom a → Token.IsAtom a := by
  obtain ⟨t, htree, hprogram⟩ := bind_eq_ok.mp h
  have hatoms := Source.tree_eq_ok htree
  obtain ⟨⟨hentry, hatom⟩, hne, hfuncs⟩ := Source.program_eq_ok hprogram
  refine ⟨⟨hentry, hatoms _ hatom⟩, hne, fun f hf => ?_⟩
  obtain ⟨s, hfunc, hs⟩ := hfuncs f hf
  obtain ⟨hname, hatom, hcode⟩ := Source.func_eq_ok hfunc
  refine ⟨⟨hname, hatoms _ (hs _ hatom)⟩, fun i hi => ?_⟩
  obtain ⟨u, hinstr, hu⟩ := hcode i hi
  exact ⟨_, u, hinstr, fun a ha => hatoms a (hs a (hu a ha))⟩

/-- The labels of a program that has been read can be written and read again. -/
theorem labels_of_parse (h : Program.parse name text = .ok p) :
    (p.entry.name ≠ "" ∧ p.entry.Readable) ∧ p.funcs ≠ [] ∧
      ∀ f ∈ p.funcs, f.name.name ≠ "" ∧ ∀ l, f.HasLabel l → l.Readable := by
  obtain ⟨hentry, hne, hfuncs⟩ := parse_eq_ok h
  refine ⟨hentry, hne, fun f hf => ?_⟩
  obtain ⟨⟨hnamed, hname⟩, hcode⟩ := hfuncs f hf
  refine ⟨hnamed, ?_⟩
  rintro l (rfl | ⟨i, hi, hl⟩)
  · exact hname
  · obtain ⟨src, t, hinstr, hatoms⟩ := hcode i hi
    exact Source.instr_labels hinstr hatoms hl

/-- A well-formed instruction that has been read can be written and read again, unless it runs
together. -/
theorem instr_readable_of_parse (h : Program.parse name text = .ok p)
    (hcheck : ∀ f ∈ p.funcs, f.check = .ok ()) {f : Func} (hf : f ∈ p.funcs) {i : Instr}
    (hi : i ∈ f.code) (hglued : i ≠ .dec (.var ⟨"<"⟩)) : i.Readable := by
  obtain ⟨_, _, hfuncs⟩ := parse_eq_ok h
  obtain ⟨src, t, hinstr, hatoms⟩ := (hfuncs f hf).2 i hi
  exact Source.instr_readable hinstr hatoms (Func.check_eq_ok_iff.mp (hcheck f hf) i hi) hglued

/-- So can a function if none of its instructions does. -/
theorem func_readable_of_parse (h : Program.parse name text = .ok p)
    (hcheck : ∀ f ∈ p.funcs, f.check = .ok ()) {f : Func} (hf : f ∈ p.funcs)
    (hglued : .dec (.var ⟨"<"⟩) ∉ f.code) : f.Readable := by
  obtain ⟨_, _, hfuncs⟩ := parse_eq_ok h
  obtain ⟨⟨hnamed, hname⟩, _⟩ := hfuncs f hf
  refine ⟨hname, hnamed, fun i hi => ?_⟩
  refine instr_readable_of_parse h hcheck hf hi ?_
  rintro rfl
  exact hglued hi

theorem readable_of_parse (h : Program.parse name text = .ok p)
    (hcheck : ∀ f ∈ p.funcs, f.check = .ok ())
    (hglued : ∀ f ∈ p.funcs, .dec (.var ⟨"<"⟩) ∉ f.code) : p.Readable := by
  obtain ⟨⟨hnamed, hentry⟩, hne, _⟩ := parse_eq_ok h
  exact ⟨hentry, hnamed, hne, fun f hf => func_readable_of_parse h hcheck hf (hglued f hf)⟩

end Program

end Spillway
