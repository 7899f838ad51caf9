import Abcout.Proofs.Clause
import Abcout.Proofs.Contexts
import Abcout.Proofs.Omission

/-!
# Abcout.Proofs.Selection — some macros of a file, or all of them

An import statement with names only makes the definitions that are named.  `Block.SelfContained blocks names` says
that these call no other definitions of the file.

`Import.add_names_iff_selfContained`: where the file can be imported as a whole, the named macros can be if and
only if their definitions are self-contained, and then they have the same records up to the names of local labels.
-/

namespace Abcout

namespace Symbols

variable {s t : Symbols} {b : Block}

/-- What came before a definition. -/
theorem exists_before_of_mem {blocks : List Block} (h : blocks.foldlM Symbols.define s = .ok t) (hb : b ∈ blocks) :
    ∃ before s₁ s₂, before ⊆ blocks ∧ before.foldlM Symbols.define s = .ok s₁ ∧ s₁.define b = .ok s₂ := by
  obtain ⟨before, after, rfl⟩ := List.append_of_mem hb
  obtain ⟨s₁, s₂, hs₁, hs₂, -⟩ := exists_of_foldlM_append_cons h
  exact ⟨before, s₁, s₂, List.subset_append_left _ _, hs₁, hs₂⟩

/-- A definition calls macros that are there. -/
theorem mem_of_callee (h : s.define b = .ok t) {k : String} (hk : k ∈ Line.callees b.body) : k ∈ s.macros := by
  obtain ⟨params, locals, d, -, -, hd, -⟩ := define_eq_ok h
  obtain ⟨l, hl, hcall⟩ := List.mem_filterMap.1 hk
  obtain ⟨before, after, hbody⟩ := List.append_of_mem hl
  rw [hbody] at hd
  obtain ⟨d₁, d₂, -, hd₁, hstep, -⟩ := Block.Draft.exists_at (.refl _) hd
  cases hl : l.statement with
  | call name args =>
    rw [hl] at hcall
    cases hcall
    obtain ⟨piece, -, -, hexpanded, -⟩ := Block.Draft.body_step hstep
    obtain ⟨m, hm, -⟩ := hexpanded k args hl
    exact (Block.Draft.sameCode_foldlM hd₁).1.symm.extends.mem (mem_iff_exists_getElem?.2 ⟨m, hm⟩)
  | _ =>
    rw [hl] at hcall
    cases hcall

/-- Definitions of a file call macros that were there before, or each other. -/
theorem callee_of_defineAll {blocks : List Block} (h : blocks.foldlM Symbols.define s = .ok t)
    (hb : b ∈ blocks) {k : String} (hk : k ∈ Line.callees b.body) : k ∈ s.macros ∨ ∃ b' ∈ blocks, b'.name = k := by
  obtain ⟨before, s₁, s₂, hbefore, hs₁, hs₂⟩ := exists_before_of_mem h hb
  refine ((mem_defineAll hs₁).1 (mem_of_callee hs₂ hk)).imp_right ?_
  rintro ⟨b', hb', hname⟩
  exact ⟨b', hbefore hb', hname⟩

theorem checkName_of_defineAll {blocks : List Block} (h : blocks.foldlM Symbols.define s = .ok t)
    (hb : b ∈ blocks) : isIdentifier b.name.toList = true ∧ b.name ∉ s.macros := by
  obtain ⟨before, s₁, s₂, -, hs₁, hs₂⟩ := exists_before_of_mem h hb
  obtain ⟨-, -, -, hname, -⟩ := define_eq_ok_iff.1 hs₂
  obtain ⟨hidentifier, -, hnew⟩ := Block.checkName_eq_ok_iff.1 hname
  exact ⟨hidentifier, fun hmem => hnew ((mem_defineAll hs₁).2 (.inl hmem))⟩

end Symbols

/-! ## Import statements -/

/-- Named definitions of a file call no other definitions of the file than named ones. -/
def Block.SelfContained (blocks : List Block) (names : List String) : Prop :=
  ∀ b ∈ blocks, b.name ∈ names → ∀ k ∈ Line.callees b.body, (∃ b' ∈ blocks, b'.name = k) → k ∈ names

instance (blocks : List Block) (names : List String) : Decidable (Block.SelfContained blocks names) :=
  inferInstanceAs (Decidable (∀ b ∈ blocks, b.name ∈ names → ∀ k ∈ Line.callees b.body,
    (∃ b' ∈ blocks, b'.name = k) → k ∈ names))

namespace Import

theorem select_names_eq_ok_iff {names : List String} {blocks selected : List Block} :
    select (.names names) blocks = .ok selected ↔
      (∀ n ∈ names, ∃ b ∈ blocks, b.name = n) ∧ selected = blocks.filter fun b => names.contains b.name := by
  rw [select]
  cases hfind : names.find? fun name => !blocks.any (·.name == name) with
  | none =>
    have hall : ∀ n ∈ names, ∃ b ∈ blocks, b.name = n := by simpa using List.find?_eq_none.1 hfind
    exact ⟨fun h => ⟨hall, (Except.ok.inj h).symm⟩, fun h => congrArg Except.ok h.2.symm⟩
  | some n =>
    have hn : ∀ b ∈ blocks, b.name ≠ n := by simpa using List.find?_some hfind
    refine iff_of_false nofun fun h => ?_
    obtain ⟨b, hb, hname⟩ := h.1 n (List.mem_of_find?_eq_some hfind)
    exact hn b hb hname

theorem checkNew_eq_ok_iff {macros : MacroTable} {blocks : List Block} :
    checkNew macros blocks = .ok () ↔ ∀ b ∈ blocks, b.name ∉ macros := by
  unfold checkNew
  cases hfind : blocks.find? fun b => macros.contains b.name with
  | none => simpa using List.find?_eq_none.1 hfind
  | some b =>
    have hb : b.name ∈ macros := by simpa using List.find?_some hfind
    exact iff_of_false (by simp) fun h => h b (List.mem_of_find?_eq_some hfind) hb

/-- A copied record. -/
theorem getElem?_copy_of_mem {source target : MacroTable} {blocks : List Block} {b : Block} {m : Macro}
    (hb : b ∈ blocks) (hm : source[b.name]? = some m) : (copy source target blocks)[b.name]? = some m := by
  rw [getElem?_copy, if_pos ⟨⟨b, hb, rfl⟩, mem_iff_exists_getElem?.2 ⟨m, hm⟩⟩, hm]

variable {tree : FileTree} {chain : List Location} {directory file : String} {s s' t inner inner' : Symbols}
  {line : Line} {f : tree.TextFile} {lines : List Line} {names : List String}

/-- What has been done when a file is imported as a whole. -/
theorem add_all_eq_ok
    (h : add tree chain directory s { line with text := ImportClause.render ⟨.all, file⟩ } = .ok s')
    (hf : tree.textFile? (Path.join directory (file ++ "." ++ sourceExtension)) = some f)
    (hlines : Line.readAll (file ++ "." ++ sourceExtension) f.text = .ok lines) :
    ImportClause.Unmarked file.toList ∧ file ≠ "from" ∧ f.location ∉ chain ∧ ∃ inner inner',
      load tree (f.location :: chain) {} (originOf ⟨.all, file⟩ directory) f.text = .ok (lines, inner) ∧
      checkNew s.macros (Block.split lines).1 = .ok () ∧
      (Block.split lines).1.foldlM Symbols.define inner = .ok inner' ∧
      s' = { s with macros := copy inner'.macros s.macros (Block.split lines).1 } := by
  obtain ⟨clause, f', lines', inner, inner', blocks, ⟨hclause, hf'⟩, hchain, hload, hblocks, hnew, hinner, rfl⟩ :=
    add_eq_ok_iff.1 h
  obtain ⟨rfl, hfile, hfrom⟩ := ImportClause.parse_render_all.1 hclause
  obtain rfl : f = f' := Option.some.inj (hf.symm.trans hf')
  obtain rfl : lines = lines' := Except.ok.inj (hlines.symm.trans (load_eq_ok hload).1)
  cases hblocks
  exact ⟨hfile, hfrom, hchain, inner, inner', hload, hnew, hinner, rfl⟩

/-- The definitions with given names. -/
theorem mem_filter_names {blocks : List Block} {b : Block} :
    b ∈ blocks.filter (fun b => names.contains b.name) ↔ b ∈ blocks ∧ b.name ∈ names := by
  rw [List.mem_filter, List.contains_iff_mem]

section Names

variable (hall : add tree chain directory s { line with text := ImportClause.render ⟨.all, file⟩ } = .ok s')
  (hf : tree.textFile? (Path.join directory (file ++ "." ++ sourceExtension)) = some f)
  (hlines : Line.readAll (file ++ "." ++ sourceExtension) f.text = .ok lines) (hnames : names ≠ [])
  (hdefined : ∀ n ∈ names, ∃ b ∈ (Block.split lines).1, b.name = n)
include hall hf hlines hnames hdefined

/-- A statement for some macros of a file that can be imported as a whole. -/
theorem parse_names_of_add_all :
    ImportClause.parse (ImportClause.render ⟨.names names, file⟩).toList = .ok ⟨.names names, file⟩ := by
  obtain ⟨hfile, hfrom, -, inner, inner', -, -, hinner, -⟩ := add_all_eq_ok hall hf hlines
  refine ImportClause.parse_render_names hnames (fun n hn => ?_) hfile hfrom
  obtain ⟨b, hb, rfl⟩ := hdefined n hn
  exact ImportClause.unmarked_of_isIdentifier (Symbols.checkName_of_defineAll hinner hb).1

/-- Named macros are imported, and have renamed records, if their definitions are self-contained. -/
theorem add_names_of_selfContained
    (hown : ∀ b ∈ (Block.split lines).1, b.name ∈ names → ∀ x, Line.Mentions b.body x → x ∈ Line.declared b.body)
    (hcontained : Block.SelfContained (Block.split lines).1 names) :
    ∃ t, add tree chain directory s { line with text := ImportClause.render ⟨.names names, file⟩ } = .ok t ∧
      ∀ n ∈ names, ∃ m m' g, s'.macros[n]? = some m ∧ t.macros[n]? = some m' ∧ m.RenamedBy g m' := by
  have hclause := parse_names_of_add_all hall hf hlines hnames hdefined
  obtain ⟨-, -, hchain, inner, inner', hload, hnew, hinner, rfl⟩ := add_all_eq_ok hall hf hlines
  obtain ⟨hclosed, hlabels⟩ := load_closed hload
  have hrange := (Block.split_forall Line.InRange.blanked (Line.readAll_inRange hlines)).1
  set blocks := (Block.split lines).1
  -- of the macros of the file those that are named are kept, and so are all others
  obtain ⟨t', ht', hkeeps⟩ : ∃ t',
      (blocks.filter fun b => names.contains b.name).foldlM Symbols.define inner = .ok t' ∧
      inner'.macros.Keeps (fun k => (∃ b ∈ blocks, b.name = k) → k ∈ names) t'.macros := by
    refine Symbols.defineAll_renamed (.refl _ _) hclosed hlabels hrange (fun b hb hout hkeep => ?_)
      (fun b hb hnamed => ?_) (fun b hb hnamed => ?_) hinner
    · rw [← Bool.not_eq_true, List.contains_iff_mem] at hout
      exact hout (hkeep ⟨b, hb, rfl⟩)
    · exact hown b hb (List.contains_iff_mem.1 hnamed)
    · exact hcontained b hb (List.contains_iff_mem.1 hnamed)
  refine ⟨_, add_eq_ok_iff.2 ⟨⟨.names names, file⟩, f, lines, inner, t', _, ⟨hclause, hf⟩, hchain, hload,
    select_names_eq_ok_iff.2 ⟨hdefined, rfl⟩, ?_, ht', rfl⟩, fun n hn => ?_⟩
  · rw [checkNew_eq_ok_iff] at hnew ⊢
    exact fun b hb => hnew b (mem_filter_names.1 hb).1
  · obtain ⟨b, hb, rfl⟩ := hdefined n hn
    obtain ⟨m, hm⟩ := mem_iff_exists_getElem?.1 ((Symbols.mem_defineAll hinner).2 (.inr ⟨b, hb, rfl⟩))
    obtain ⟨m', g, hm', hmm'⟩ := hkeeps.record b.name m (fun _ => hn) hm
    exact ⟨m, m', g, getElem?_copy_of_mem hb hm, getElem?_copy_of_mem (mem_filter_names.2 ⟨hb, hn⟩) hm', hmm'⟩

/-- Where named macros are imported, their definitions are self-contained. -/
theorem selfContained_of_add_names
    (h : add tree chain directory s { line with text := ImportClause.render ⟨.names names, file⟩ } = .ok t) :
    Block.SelfContained (Block.split lines).1 names := by
  have hparse := parse_names_of_add_all hall hf hlines hnames hdefined
  obtain ⟨-, -, -, inner, inner', hload, -, hinner, -⟩ := add_all_eq_ok hall hf hlines
  obtain ⟨clause, f', lines', inner₁, t', selected, ⟨hclause, hf'⟩, -, hload', hselect, -, ht', -⟩ :=
    add_eq_ok_iff.1 h
  obtain rfl : ⟨.names names, file⟩ = clause := Except.ok.inj (hparse.symm.trans hclause)
  obtain rfl : f = f' := Option.some.inj (hf.symm.trans hf')
  obtain ⟨rfl, rfl⟩ := Prod.mk.inj (Except.ok.inj (hload.symm.trans hload'))
  obtain ⟨-, rfl⟩ := select_names_eq_ok_iff.1 hselect
  rintro b hb hname k hk ⟨b', hb', rfl⟩
  rcases Symbols.callee_of_defineAll ht' (mem_filter_names.2 ⟨hb, hname⟩) hk with hmem | ⟨b₁, hb₁, hname₁⟩
  · -- a macro of the file was not there before
    exact absurd hmem (Symbols.checkName_of_defineAll hinner hb').2
  · exact hname₁ ▸ (mem_filter_names.1 hb₁).2

/-- **Some macros of a file, or all of them.**  A file can be imported as a whole, and `names` are some of its
macros, whose definitions mention no labels but their own.  An import statement for these succeeds if and only if
each macro of the file that one of them calls is among them, too; then it gives the same records, but for the names
of local labels. -/
theorem add_names_iff_selfContained
    (hown : ∀ b ∈ (Block.split lines).1, b.name ∈ names → ∀ x, Line.Mentions b.body x → x ∈ Line.declared b.body) :
    ((∃ t, add tree chain directory s { line with text := ImportClause.render ⟨.names names, file⟩ } = .ok t) ↔
        Block.SelfContained (Block.split lines).1 names) ∧
      ∀ t, add tree chain directory s { line with text := ImportClause.render ⟨.names names, file⟩ } = .ok t →
        ∀ n ∈ names, ∃ m m' g, s'.macros[n]? = some m ∧ t.macros[n]? = some m' ∧ m.RenamedBy g m' := by
  constructor
  · constructor
    · rintro ⟨t, ht⟩
      exact selfContained_of_add_names hall hf hlines hnames hdefined ht
    · intro hcontained
      obtain ⟨t, ht, -⟩ := add_names_of_selfContained hall hf hlines hnames hdefined hown hcontained
      exact ⟨t, ht⟩
  · intro t ht
    have hcontained := selfContained_of_add_names hall hf hlines hnames hdefined ht
    obtain ⟨t', ht', hrecords⟩ := add_names_of_selfContained hall hf hlines hnames hdefined hown hcontained
    obtain rfl : t = t' := Except.ok.inj (ht.symm.trans ht')
    exact hrecords

end Names

/-- A file with a macro that two others call. -/
def skipping : FileTree := textTree
  [(["lib.abcout"], "%macro skip 0\n0, 0, over\nover:\n%endmacro\n%macro idle 0\nskip\n%endmacro\n" ++
    "%macro twice 0\nskip\nskip\n%endmacro\n")]

/-- Without `idle` there is one call less to count.  Without `skip` there is nothing to call. -/
theorem add_names_iff_selfContained_skipping : ∃ s t m m' g,
    add skipping [] "." {} ⟨ImportClause.render ⟨.all, "lib"⟩, 1, "[code]", .importing⟩ = .ok s ∧
    add skipping [] "." {} ⟨ImportClause.render ⟨.names ["twice", "skip"], "lib"⟩, 1, "[code]", .importing⟩ =
      .ok t ∧
    s.macros["twice"]? = some m ∧ t.macros["twice"]? = some m' ∧ m.RenamedBy g m' ∧
    Line.declared m.body = ["Mskip_over_2", "Mskip_over_3"] ∧
    Line.declared m'.body = ["Mskip_over_1", "Mskip_over_2"] ∧
    ¬ ∃ t, add skipping [] "." {}
      ⟨ImportClause.render ⟨.names ["twice"], "lib"⟩, 1, "[code]", .importing⟩ = .ok t := by
  have hdepth : (skipping.readable.filter (· ∉ ([] : List Location))).length ≤ 1 := by decide +kernel
  have hall : ((add skipping [] "." {} ⟨ImportClause.render ⟨.all, "lib"⟩, 1, "[code]", .importing⟩).toOption.bind
      fun s => s.macros["twice"]?.map fun m => Line.declared m.body) = some ["Mskip_over_2", "Mskip_over_3"] := by
    rw [← addWith_loadWithin (fun _ _ => .ok ([], {})) hdepth]
    decide +kernel
  have hsome : ((add skipping [] "." {}
      ⟨ImportClause.render ⟨.names ["twice", "skip"], "lib"⟩, 1, "[code]", .importing⟩).toOption.bind
      fun t => t.macros["twice"]?.map fun m => Line.declared m.body) = some ["Mskip_over_1", "Mskip_over_2"] := by
    rw [← addWith_loadWithin (fun _ _ => .ok ([], {})) hdepth]
    decide +kernel
  have hfile : ((skipping.textFile? (Path.join "." ("lib" ++ "." ++ sourceExtension))).any fun f =>
      (Line.readAll ("lib" ++ "." ++ sourceExtension) f.text).toOption.any fun lines =>
        (∀ n ∈ ["twice", "skip"], ∃ b ∈ (Block.split lines).1, b.name = n) ∧
        (∀ b ∈ (Block.split lines).1, ∀ l ∈ b.body, ∀ op ∈ l.statement.operands, op = .number 0 ∨
          op ∈ (Line.declared b.body).map Operand.label) ∧
        ¬ Block.SelfContained (Block.split lines).1 ["twice"]) = true := by
    decide +kernel
  obtain ⟨s, hs, hm⟩ := Option.bind_eq_some_iff.1 hall
  obtain ⟨t, ht, hm'⟩ := Option.bind_eq_some_iff.1 hsome
  rw [toOption_eq_some] at hs ht
  obtain ⟨m, hm, hdeclared⟩ := Option.map_eq_some_iff.1 hm
  obtain ⟨m', hm', hdeclared'⟩ := Option.map_eq_some_iff.1 hm'
  obtain ⟨f, hf, hlines⟩ := (Option.any_eq_true _ _).1 hfile
  obtain ⟨lines, hlines, h⟩ := (Option.any_eq_true _ _).1 hlines
  obtain ⟨hdefined, hown, hcontained⟩ := of_decide_eq_true h
  rw [toOption_eq_some] at hlines
  have hown' : ∀ b ∈ (Block.split lines).1, ∀ x, Line.Mentions b.body x → x ∈ Line.declared b.body := by
    rintro b hb x ⟨l, hl, hx⟩
    simpa using hown b hb l hl _ hx
  have hs' : add skipping [] "." {} { (⟨"", 1, "[code]", .importing⟩ : Line) with
      text := ImportClause.render ⟨.all, "lib"⟩ } = .ok s := hs
  obtain ⟨n, n', g, hn, hn', hrenamed⟩ :=
    (add_names_iff_selfContained hs' hf hlines (by simp) hdefined fun b hb _ => hown' b hb).2 t ht
    "twice" (by simp)
  have hdefined' : ∀ k ∈ ["twice"], ∃ b ∈ (Block.split lines).1, b.name = k := fun k hk =>
    hdefined k (List.mem_cons.2 (.inl (List.mem_singleton.1 hk)))
  have honly := (add_names_iff_selfContained hs' hf hlines (List.cons_ne_nil _ _) hdefined'
    fun b hb _ => hown' b hb).1
  obtain rfl : m = n := Option.some.inj (hm.symm.trans hn)
  obtain rfl : m' = n' := Option.some.inj (hm'.symm.trans hn')
  exact ⟨s, t, m, m', g, hs, ht, hm, hm', hrenamed, hdeclared, hdeclared', fun h => hcontained (honly.1 h)⟩

/-- A file with two macros, of which the second calls the first. -/
def siblings : FileTree := textTree
  [(["lib.abcout"], "%macro a 0\n1, 1\n%endmacro\n%macro b 0\na\n%endmacro\n")]

/-- The second macro cannot be imported alone. -/
theorem add_names_siblings :
    (∃ s, add siblings [] "." {} ⟨ImportClause.render ⟨.all, "lib"⟩, 1, "[code]", .importing⟩ = .ok s) ∧
      add siblings [] "." {} ⟨ImportClause.render ⟨.names ["b"], "lib"⟩, 1, "[code]", .importing⟩ =
        .error ⟨.macroUndefined "a", ⟨"lib.abcout", 5⟩, [⟨"[code]", 1⟩]⟩ := by
  have hdepth : (siblings.readable.filter (· ∉ ([] : List Location))).length ≤ 1 := by decide +kernel
  have hall : (add siblings [] "." {}
      ⟨ImportClause.render ⟨.all, "lib"⟩, 1, "[code]", .importing⟩).toOption.isSome = true := by
    rw [← addWith_loadWithin (fun _ _ => .ok ([], {})) hdepth]
    decide +kernel
  have hone : (match add siblings [] "." {}
        ⟨ImportClause.render ⟨.names ["b"], "lib"⟩, 1, "[code]", .importing⟩ with
      | .error fault => some fault
      | .ok _ => none) = some ⟨.macroUndefined "a", ⟨"lib.abcout", 5⟩, [⟨"[code]", 1⟩]⟩ := by
    rw [← addWith_loadWithin (fun _ _ => .ok ([], {})) hdepth]
    decide +kernel
  obtain ⟨s, hs⟩ := Option.isSome_iff_exists.1 hall
  refine ⟨⟨s, toOption_eq_some.1 hs⟩, ?_⟩
  split at hone
  · rename_i fault hfault
    exact hfault.trans (congrArg Except.error (Option.some.inj hone))
  · cases hone

end Import

end Abcout
