import Abcout.Import.Load
import Abcout.Proofs.Macros

/-!
# Abcout.Proofs.Import — imported macros are well-formed

`Block.split_forall`: taking the definitions out of a file only moves lines around and blanks some.
`Import.add_eq_ok` is all that an import statement does, and `Import.load_all` goes down the files that import each
other: the induction is on the number of files that are not yet open.
-/

namespace Abcout

/-! ## Definitions and program of a file -/

namespace Block

/-- All lines that a splitting holds satisfy `P`. -/
structure Splitting.All (P : Line → Prop) (s : Splitting) : Prop where
  blocks : ∀ b ∈ s.blocks.toList, P b.opening ∧ ∀ l ∈ b.body, P l
  program : ∀ l ∈ s.program.toList, P l
  current : ∀ c ∈ s.current, P c.1 ∧ ∀ l ∈ c.2.2.2.toList, P l

variable {P : Line → Prop}

theorem Splitting.All.step (hblank : ∀ l : Line, P l → P l.blanked) {s : Splitting} (h : s.All P) {line : Line}
    (hl : P line) : (s.step line).All P := by
  have hprogram : ∀ l', P l' → ∀ l ∈ (s.program.push l').toList, P l := by
    intro l' hl' l hmem
    rw [Array.toList_push, List.mem_append, List.mem_singleton] at hmem
    rcases hmem with hmem | rfl
    · exact h.program l hmem
    · exact hl'
  unfold Splitting.step
  split
  · -- a definition begins
    refine ⟨h.blocks, hprogram _ (hblank line hl), fun c hc => ?_⟩
    cases hc
    exact ⟨hl, List.forall_mem_nil _⟩
  · -- it ends
    rename_i opening name params body _ hcur
    refine ⟨fun b hb => ?_, hprogram _ (hblank line hl), fun c hc => by cases hc⟩
    rw [Array.toList_push, List.mem_append, List.mem_singleton] at hb
    rcases hb with hb | rfl
    · exact h.blocks b hb
    · exact h.current _ hcur
  · -- a line of it
    rename_i opening name params body hcur _
    refine ⟨h.blocks, hprogram _ (hblank line hl), fun c hc => ?_⟩
    cases hc
    refine ⟨(h.current _ hcur).1, fun l hmem => ?_⟩
    rw [Array.toList_push, List.mem_append, List.mem_singleton] at hmem
    rcases hmem with hmem | rfl
    · exact (h.current _ hcur).2 l hmem
    · exact hl
  · -- a line of the program
    rename_i hcur _
    refine ⟨h.blocks, hprogram _ hl, fun c hc => ?_⟩
    rw [hcur] at hc
    cases hc

theorem Splitting.All.foldl_step (hblank : ∀ l : Line, P l → P l.blanked) (lines : List Line)
    (hl : ∀ l ∈ lines, P l) {s : Splitting} (h : s.All P) : (lines.foldl Splitting.step s).All P := by
  induction lines generalizing s with
  | nil => exact h
  | cons line rest ih =>
    exact ih (fun l hmem => hl l (List.mem_cons_of_mem _ hmem)) (h.step hblank (hl line List.mem_cons_self))

/-- What holds of all lines of a file, and stays when a line is blanked, holds of its definitions and of its
program. -/
theorem split_forall (hblank : ∀ l : Line, P l → P l.blanked) {lines : List Line} (hl : ∀ l ∈ lines, P l) :
    (∀ b ∈ (split lines).1, ∀ l ∈ b.body, P l) ∧ (∀ l ∈ (split lines).2, P l) ∧
      ∀ b ∈ (split lines).1, P b.opening := by
  have h0 : Splitting.All P {} := ⟨by simp, by simp, fun c hc => by cases hc⟩
  have h := h0.foldl_step hblank lines hl
  exact ⟨fun b hb => (h.blocks b hb).2, h.program, fun b hb => (h.blocks b hb).1⟩

end Block

/-- A line that neither begins nor ends a definition. -/
structure Line.Plain (l : Line) : Prop where
  not_opening : ∀ name params, l.statement ≠ .opening name params
  not_closing : l.statement ≠ .closing
  not_directive : l.statement ≠ .directive

namespace Block

variable {lines : List Line}

theorem Pairing.step_plain (p : Pairing) {l : Line} (h : l.Plain) : p.step l = .ok p := by
  obtain ⟨hopening, hclosing, hdirective⟩ := h
  unfold Pairing.step
  split
  · exact absurd ‹_› (hopening _ _)
  · exact absurd ‹_› hclosing
  · exact absurd ‹_› hdirective
  · rfl

/-- **Inversion**: a line begins a definition, with a text that is new, or ends the innermost one, or is plain. -/
theorem Pairing.step_eq_ok_iff {p q : Pairing} {l : Line} : p.step l = .ok q ↔
    (∃ name params, l.statement = .opening name params ∧ l.text ∉ p.seen ∧
      q = ⟨l :: p.unclosed, p.seen.insert l.text, p.outer <|> p.unclosed.getLast?⟩) ∨
    (∃ first rest, l.statement = .closing ∧ p.unclosed = first :: rest ∧ q = { p with unclosed := rest }) ∨
    l.Plain ∧ q = p := by
  constructor
  · intro h
    unfold Pairing.step at h
    split at h
    · rename_i name params hl
      split_ifs at h with hseen
      cases h
      rw [Std.ExtTreeSet.contains_iff_mem] at hseen
      exact .inl ⟨name, params, hl, hseen, rfl⟩
    · rename_i hl
      split at h
      · cases h
      · rename_i first rest hunclosed
        cases h
        exact .inr (.inl ⟨first, rest, hl, hunclosed, rfl⟩)
    · cases h
    · rename_i hopening hclosing hdirective
      cases h
      exact .inr (.inr ⟨⟨hopening, hclosing, hdirective⟩, rfl⟩)
  · rintro (⟨name, params, hl, hseen, rfl⟩ | ⟨first, rest, hl, hunclosed, rfl⟩ | ⟨hl, rfl⟩)
    · rw [← Std.ExtTreeSet.contains_iff_mem] at hseen
      simp only [Pairing.step, hl]
      rw [if_neg hseen]
    · simp only [Pairing.step, hl, hunclosed]
    · exact step_plain q hl

theorem check_of_plain (h : ∀ l ∈ lines, l.Plain) : check lines = .ok () := by
  rw [check, foldlM_of_fixed fun l hl => Pairing.step_plain {} (h l hl)]
  rfl

/-- Where there are no definitions, all is program. -/
theorem split_of_plain (h : ∀ l ∈ lines, l.Plain) : split lines = ([], lines) := by
  have hfold : ∀ done : Array Line, lines.foldl Splitting.step { program := done } =
      { program := done ++ lines.toArray } := by
    induction lines with
    | nil => simp
    | cons l rest ih =>
      intro done
      obtain ⟨hl, hrest⟩ := List.forall_mem_cons.1 h
      have hstep : Splitting.step { program := done } l = { program := done.push l } := by
        cases hstmt : l.statement with
        | opening name params => exact absurd hstmt (hl.not_opening name params)
        | _ => simp only [Splitting.step, hstmt]
      rw [List.foldl_cons, hstep, ih hrest]
      simp
  simp [split, hfold #[]]

end Block

theorem Line.InRange.blanked (l : Line) (_ : l.InRange) : l.blanked.InRange := List.forall_mem_nil _

/-! ## Import statements -/

namespace Import

theorem readChecked_eq_ok_iff {file text : String} {lines : List Line} : readChecked file text = .ok lines ↔
    Line.readAll file text = .ok lines ∧ check lines = .ok () ∧ Block.check lines = .ok () := by
  unfold readChecked
  constructor
  · intro h
    obtain ⟨lines', hread, h⟩ := bind_eq_ok.1 h
    obtain ⟨hcheck, h⟩ := check_bind_eq_ok.1 h
    obtain ⟨hblocks, h⟩ := check_bind_eq_ok.1 h
    obtain rfl := pure_eq_ok.1 h
    exact ⟨hread, hcheck, hblocks⟩
  · rintro ⟨hread, hcheck, hblocks⟩
    exact bind_eq_ok.2 ⟨lines, hread, check_bind_eq_ok.2 ⟨hcheck, check_bind_eq_ok.2 ⟨hblocks, rfl⟩⟩⟩

/-- A file without import statements can be checked from any state on. -/
theorem exists_foldlM_checked {lines : List Line} (h : ∀ l ∈ lines, l.isImport = false) (c : Checked) :
    ∃ c', lines.foldlM Checked.step c = .ok c' := by
  induction lines generalizing c with
  | nil => exact ⟨c, rfl⟩
  | cons l rest ih =>
    obtain ⟨hl, hrest⟩ := List.forall_mem_cons.1 h
    have hstep : ∃ c₁, c.step l = .ok c₁ := by
      unfold Checked.step
      split
      · exact ⟨_, rfl⟩
      · exact ⟨_, rfl⟩
      · rename_i hstmt
        simp [Line.isImport, hstmt] at hl
      · exact ⟨_, rfl⟩
    obtain ⟨c₁, hc₁⟩ := hstep
    rw [List.foldlM_cons, hc₁]
    exact ih hrest c₁

theorem check_of_isImport {lines : List Line} (h : ∀ l ∈ lines, l.isImport = false) : check lines = .ok () := by
  obtain ⟨c, hc⟩ := exists_foldlM_checked h {}
  rw [check, hc]
  rfl

theorem load_eq_ok_iff {tree : FileTree} {chain : List Location} {s s' : Symbols} {origin : Origin} {text : String}
    {lines : List Line} :
    load tree chain s origin text = .ok (lines, s') ↔ readChecked origin.name text = .ok lines ∧
      (lines.filter Line.isImport).foldlM (add tree chain origin.directory) s = .ok s' := by
  rw [load_eq]
  constructor
  · intro h
    obtain ⟨lines', hread, h⟩ := bind_eq_ok.1 h
    obtain ⟨s₁, hadd, h⟩ := bind_eq_ok.1 h
    cases pure_eq_ok.1 h
    exact ⟨hread, hadd⟩
  · rintro ⟨hread, hadd⟩
    exact bind_eq_ok.2 ⟨lines, hread, bind_eq_ok.2 ⟨s', hadd, rfl⟩⟩

theorem load_eq_ok {tree : FileTree} {chain : List Location} {s s' : Symbols} {origin : Origin} {text : String}
    {lines : List Line} (h : load tree chain s origin text = .ok (lines, s')) :
    Line.readAll origin.name text = .ok lines ∧
      (lines.filter Line.isImport).foldlM (add tree chain origin.directory) s = .ok s' := by
  obtain ⟨hread, hadd⟩ := load_eq_ok_iff.1 h
  exact ⟨(readChecked_eq_ok_iff.1 hread).1, hadd⟩

theorem mem_of_select {selection : Selection} {blocks selected : List Block}
    (h : select selection blocks = .ok selected) : ∀ b ∈ selected, b ∈ blocks := by
  intro b hb
  unfold select at h
  split at h
  · cases h
    exact hb
  · split at h
    · cases h
    · cases h
      exact (List.mem_filter.1 hb).1

/-- Where the file of an import statement comes from, for a source from `directory`. -/
def originOf (clause : ImportClause) (directory : String) : Origin :=
  ⟨(Path.parent? (Path.join directory clause.fileName)).getD directory, clause.fileName⟩

/-- A line of a source from `directory` is the import statement `clause`, and there is a file `f` for it. -/
def Names (tree : FileTree) (directory : String) (line : Line) (clause : ImportClause) (f : tree.TextFile) :
    Prop :=
  ImportClause.parse line.text.toList = .ok clause ∧ tree.textFile? (Path.join directory clause.fileName) = some f

/-- **All that an import statement does**: it loads a file that is not open, defines the selected macros there, and
copies their records, if none is there already. -/
theorem add_eq_ok_iff {tree : FileTree} {chain : List Location} {directory : String}
    {s s' : Symbols} {line : Line} : add tree chain directory s line = .ok s' ↔
      ∃ (clause : ImportClause) (f : tree.TextFile) (lines : List Line) (inner inner' : Symbols)
        (blocks : List Block), Names tree directory line clause f ∧ f.location ∉ chain ∧
        load tree (f.location :: chain) {} (originOf clause directory) f.text = .ok (lines, inner) ∧
        select clause.selection (Block.split lines).1 = .ok blocks ∧ checkNew s.macros blocks = .ok () ∧
        blocks.foldlM Symbols.define inner = .ok inner' ∧
        s' = { s with macros := copy inner'.macros s.macros blocks } := by
  unfold add addWith
  constructor
  · intro h
    obtain ⟨clause, hclause, h⟩ := bind_eq_ok.1 h
    rw [mapError_eq_ok] at hclause
    simp only at h
    split at h
    · cases h
    · rename_i f hf
      split_ifs at h with hchain
      obtain ⟨⟨lines, inner⟩, hload, h⟩ := bind_eq_ok.1 h
      obtain ⟨blocks, hblocks, h⟩ := bind_eq_ok.1 h
      obtain ⟨hnew, h⟩ := check_bind_eq_ok.1 h
      obtain ⟨inner', hinner, h⟩ := bind_eq_ok.1 h
      rw [mapError_eq_ok] at hload hblocks hnew hinner
      exact ⟨clause, f, lines, inner, inner', blocks, ⟨hclause, hf⟩, hchain, hload, hblocks, hnew, hinner,
        (pure_eq_ok.1 h).symm⟩
  · rintro ⟨clause, f, lines, inner, inner', blocks, ⟨hclause, hf⟩, hchain, hload, hblocks, hnew, hinner, rfl⟩
    refine bind_eq_ok.2 ⟨clause, mapError_eq_ok.2 hclause, ?_⟩
    simp only [hf]
    rw [dif_neg hchain]
    exact bind_eq_ok.2 ⟨(lines, inner), mapError_eq_ok.2 hload, bind_eq_ok.2 ⟨blocks, mapError_eq_ok.2 hblocks,
      check_bind_eq_ok.2 ⟨mapError_eq_ok.2 hnew, bind_eq_ok.2 ⟨inner', mapError_eq_ok.2 hinner, rfl⟩⟩⟩⟩

theorem add_eq_ok {tree : FileTree} {chain : List Location} {directory : String} {s s' : Symbols} {line : Line}
    (h : add tree chain directory s line = .ok s') :
    ∃ (clause : ImportClause) (f : tree.TextFile) (lines : List Line) (inner inner' : Symbols)
      (blocks : List Block), Names tree directory line clause f ∧ f.location ∉ chain ∧
      load tree (f.location :: chain) {} (originOf clause directory) f.text = .ok (lines, inner) ∧
      select clause.selection (Block.split lines).1 = .ok blocks ∧
      blocks.foldlM Symbols.define inner = .ok inner' ∧
      s' = { s with macros := copy inner'.macros s.macros blocks } := by
  obtain ⟨clause, f, lines, inner, inner', blocks, hnames, hchain, hload, hblocks, -, hinner, hs'⟩ :=
    add_eq_ok_iff.1 h
  exact ⟨clause, f, lines, inner, inner', blocks, hnames, hchain, hload, hblocks, hinner, hs'⟩

theorem getElem?_copy (source target : MacroTable) (blocks : List Block) (k : String) :
    (copy source target blocks)[k]? =
      if (∃ b ∈ blocks, b.name = k) ∧ k ∈ source then source[k]? else target[k]? := by
  unfold copy
  induction blocks generalizing target with
  | nil => simp
  | cons b blocks ih =>
    rw [List.foldl_cons, ih]
    by_cases hk : (∃ b ∈ blocks, b.name = k) ∧ k ∈ source
    · rw [if_pos hk, if_pos ⟨List.exists_mem_cons_of_exists hk.1, hk.2⟩]
    · rw [if_neg hk]
      cases hm : source[b.name]? with
      | none =>
        have hb : b.name ∉ source := by simp [mem_iff_exists_getElem?, hm]
        rw [if_neg]
        rintro ⟨hex, hmem⟩
        rcases (List.exists_mem_cons_iff _ _ _).1 hex with rfl | hex
        · exact hb hmem
        · exact hk ⟨hex, hmem⟩
      | some m =>
        rw [getElem?_insert_name]
        by_cases hname : b.name = k
        · subst hname
          have hmem : b.name ∈ source := mem_iff_exists_getElem?.2 ⟨m, hm⟩
          rw [if_pos rfl, if_pos ⟨⟨b, List.mem_cons_self, rfl⟩, hmem⟩, hm]
        · rw [if_neg hname, if_neg]
          rintro ⟨hex, hmem⟩
          exact hk ⟨((List.exists_mem_cons_iff _ _ _).1 hex).resolve_left hname, hmem⟩

theorem copy_all {P : Macro → Prop} {source target : MacroTable} (hs : source.All P) (ht : target.All P)
    (blocks : List Block) : (copy source target blocks).All P := by
  unfold copy
  induction blocks generalizing target with
  | nil => exact ht
  | cons b blocks ih =>
    rw [List.foldl_cons]
    split
    · rename_i m hm
      exact ih (ht.insert b.name (hs b.name m hm))
    · exact ih ht

section All

variable {P : Macro → Prop} {tree : FileTree}
  (hdefine : ∀ (s s' : Symbols) (b : Block), s.labels = ∅ → s.macros.All P → (∀ l ∈ b.body, l.Faithful) →
    s.define b = .ok s' → s'.macros.All P)
include hdefine

/-- The definitions of a file that is loaded keep what a definition keeps in a file without labels. -/
theorem defineAll_all {chain : List Location} {origin : Origin} {text : String} {lines : List Line}
    {inner inner' : Symbols} (hload : load tree chain {} origin text = .ok (lines, inner)) {blocks : List Block}
    (hblocks : ∀ b ∈ blocks, b ∈ (Block.split lines).1) (hinner : inner.macros.All P ∧ inner.labels = ∅)
    (h : blocks.foldlM Symbols.define inner = .ok inner') : inner'.macros.All P ∧ inner'.labels = ∅ := by
  have hlines := (Block.split_forall Line.Faithful.blanked (Line.faithful_of_readAll (load_eq_ok hload).1)).1
  refine Symbols.foldlM_define_keeps (P := fun t => t.macros.All P ∧ t.labels = ∅) ?_ hinner h
  rintro t t' b ⟨hall, hlabels⟩ hb hstep
  exact ⟨hdefine t t' b hlabels hall (hlines b (hblocks b hb)) hstep, (Symbols.labels_define hstep).trans hlabels⟩

/-- **Step**: an import statement, if its file is loaded as it should be. -/
theorem add_all {chain : List Location} {directory : String} {s s' : Symbols} {line : Line}
    (hload : ∀ (f : tree.TextFile) (origin : Origin) (lines : List Line) (inner : Symbols), f.location ∉ chain →
      load tree (f.location :: chain) {} origin f.text = .ok (lines, inner) →
        inner.macros.All P ∧ inner.labels = ∅)
    (hs : s.macros.All P) (h : add tree chain directory s line = .ok s') :
    s'.macros.All P ∧ s'.labels = s.labels := by
  obtain ⟨clause, f, lines, inner, inner', blocks, -, hf, hinner, hsel, hdef, rfl⟩ := add_eq_ok h
  obtain ⟨hall, -⟩ := defineAll_all hdefine hinner (mem_of_select hsel) (hload f _ lines inner hf hinner) hdef
  exact ⟨copy_all hall hs blocks, rfl⟩

/-- **Run**: loading keeps what definitions keep, however deep the imports go, and touches no label. -/
theorem load_all {chain : List Location} {s s' : Symbols} {origin : Origin} {text : String} {lines : List Line}
    (hs : s.macros.All P) (h : load tree chain s origin text = .ok (lines, s')) :
    s'.macros.All P ∧ s'.labels = s.labels := by
  induction hn : tree.unopened chain using Nat.strongRecOn generalizing chain s s' origin text lines with
  | _ n ih =>
    refine foldlM_keeps (fun (t : Symbols) _ => t.macros.All P ∧ t.labels = s.labels) ?_ ⟨hs, rfl⟩ (load_eq_ok h).2
    rintro t line - t' ⟨hall, hlabels⟩ hstep
    obtain ⟨hall', hlabels'⟩ := add_all hdefine (fun f origin' lines' inner hf hload =>
      ih _ (hn ▸ FileTree.unopened_cons_lt f.mem hf) (MacroTable.all_empty P) hload rfl) hall hstep
    exact ⟨hall', hlabels'.trans hlabels⟩

end All

/-- **Loading keeps a table well-formed**, and touches no label. -/
theorem load_wellFormed {tree : FileTree} {chain : List Location} {s s' : Symbols}
    {origin : Origin} {text : String} {lines : List Line} (hs : s.macros.All Macro.WellFormed)
    (h : load tree chain s origin text = .ok (lines, s')) :
    s'.macros.All Macro.WellFormed ∧ s'.labels = s.labels :=
  load_all (fun _ _ _ _ hwf hb hdef => (Symbols.define_wellFormed hwf (fun l hl => (hb l hl).inRange) hdef).1) hs h

end Import

end Abcout
