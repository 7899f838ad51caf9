import Abcout.Proofs.Alike
import Abcout.Proofs.Capture

/-!
# Abcout.Proofs.Privacy — the local labels of macros, seen from outside

The lines of a program or of a definition are replaced one by one: by nothing, by themselves, or by the body of a
macro under new names (`Line.StandsFor`).  `Line.Private` says of such lines which labels they can name, and which
labels of one expansion can be reached from the others.

* `Line.Private.of_parts`: this follows from what each line alone is checked for, since no label is declared twice.
* `Symbols.expandAll_private`, `Symbols.define_private`: it is so in the program and in every definition.
* `Assembly.run_keeps_labels_private`: the whole of a run, with the files that are imported.

New names are reserved in declarations only.  A line that writes one out reaches the label of an expansion above it
(`Assembly.leak`).
-/

namespace Abcout

namespace Line

/-- What a line is replaced by, with the macros of the table `t`. -/
inductive StandsFor (t : MacroTable) (line : Line) : List Line → Prop
  | nothing (h : line.statement = .blank ∨ line.statement = .importing) : StandsFor t line []
  | itself (h : line.IsCode) : StandsFor t line [line]
  | expansion {name : String} {args : List Operand} {m : Macro} {r : Renaming}
      (h : line.statement = .call name args) (hm : t[name]? = some m) (hother : ∀ l, l ∉ m.locals → r.apply l = l)
      (hlocal : ∀ l ∈ m.locals, Reserved (r.apply l)) : StandsFor t line (m.instantiate args r line)

/-- The lines of one scope, each with what it is replaced by; `outer` are the labels that are declared around the
scope. -/
structure Private (t : MacroTable) (outer : String → Prop) (parts : List (Line × List Line)) : Prop where
  standsFor : ∀ e ∈ parts, e.1.StandsFor t e.2
  nodup : (declared (parts.flatMap Prod.snd)).Nodup
  /-- A label that is written is one of the scope or from around it, or its name is reserved and an expansion
  further up declares it. -/
  known : ∀ above e below x, parts = above ++ e :: below → .label x ∈ e.1.statement.operands →
    x ∈ declared (parts.map Prod.fst) ∨ outer x ∨ Reserved x ∧ x ∈ declared (above.flatMap Prod.snd)
  /-- The labels of an expansion have reserved names, and no other line comes to refer to one unless this name is
  written there. -/
  hidden : ∀ above e below name args x, parts = above ++ e :: below → e.1.statement = .call name args →
    x ∈ declared e.2 → Reserved x ∧
      (Mentions ((above ++ below).flatMap Prod.snd) x → Mentions ((above ++ below).map Prod.fst) x)
  /-- An expansion refers to a label of the scope only if it is handed over, or if there is one of this name around
  the scope. -/
  handed : ∀ e ∈ parts, ∀ name args x, e.1.statement = .call name args → x ∈ declared (parts.map Prod.fst) →
    Mentions e.2 x → .label x ∈ args ∨ outer x

section Parts

variable {t : MacroTable} {outer : String → Prop} {line : Line} {lines : List Line}
  {parts above below : List (Line × List Line)} {e f : Line × List Line} {x : String}

theorem mem_declared_flatMap : x ∈ declared (parts.flatMap Prod.snd) ↔ ∃ e ∈ parts, x ∈ declared e.2 := by
  simp only [mem_declared_iff, List.mem_map, List.mem_flatMap]
  constructor
  · rintro ⟨l, ⟨e, he, hl⟩, hx⟩
    exact ⟨e, he, l, hl, hx⟩
  · rintro ⟨e, he, l, hl, hx⟩
    exact ⟨l, ⟨e, he, hl⟩, hx⟩

/-- Where labels are declared once, no two parts declare the same one. -/
theorem notMem_declared_of_nodup (h : (declared ((above ++ e :: below).flatMap Prod.snd)).Nodup)
    (hx : x ∈ declared e.2) (hf : f ∈ above ++ below) : x ∉ declared f.2 := by
  have hperm : ((above ++ e :: below).flatMap Prod.snd).Perm (e.2 ++ (above ++ below).flatMap Prod.snd) :=
    List.perm_middle.flatMap_right Prod.snd
  have hnodup := (hperm.filterMap _).nodup_iff.1 h
  rw [← declared, declared_append, List.nodup_append] at hnodup
  exact fun hxf => hnodup.2.2 x hx x (mem_declared_flatMap.2 ⟨f, hf, hxf⟩) rfl

theorem StandsFor.reserved_of_call (h : line.StandsFor t lines) (ht : t.All Macro.WellFormed) {name : String}
    {args : List Operand} (hl : line.statement = .call name args) (hx : x ∈ declared lines) : Reserved x := by
  cases h with
  | nothing h => cases hx
  | itself h =>
    rcases h with ⟨name', hl'⟩ | ⟨ops, hl'⟩
    · cases hl.symm.trans hl'
    · cases hl.symm.trans hl'
  | expansion _ hm _ hlocal =>
    rw [declared_instantiate] at hx
    obtain ⟨l, hmem, rfl⟩ := List.mem_map.1 hx
    exact hlocal l (((ht _ _ hm).mem_locals l).2 hmem)

/-- A label that is declared for a line is written there, or has a reserved name. -/
theorem StandsFor.mem_declared (h : line.StandsFor t lines) (ht : t.All Macro.WellFormed)
    (hx : x ∈ declared lines) : line.statement = .label x ∨ Reserved x := by
  cases h with
  | nothing h => cases hx
  | itself h =>
    left
    simpa [mem_declared_iff, eq_comm] using hx
  | expansion hl hm hother hlocal => exact .inr (reserved_of_call (.expansion hl hm hother hlocal) ht hl hx)

theorem StandsFor.declares (h : line.StandsFor t lines) (hl : line.statement = .label x) : x ∈ declared lines := by
  cases h with
  | nothing h => simp [hl] at h
  | itself h => simp [mem_declared_iff, hl]
  | expansion h => cases hl.symm.trans h

/-- A label that a line comes to refer to was written there, or is declared for it, or is one from around. -/
theorem StandsFor.mentions (h : line.StandsFor t lines) (ht : t.Proper fun _ => outer) (hx : Mentions lines x) :
    .label x ∈ line.statement.operands ∨ x ∈ declared lines ∨ outer x := by
  obtain ⟨l, hl, hx⟩ := hx
  cases h with
  | nothing h => cases hl
  | itself h => exact .inl (List.mem_singleton.1 hl ▸ hx)
  | expansion hcall hm hother hlocal =>
    rcases (ht _ _ hm).label_of_instantiate hl hx with harg | hdecl | ⟨y, hy, hfree, rfl⟩
    · rw [hcall]
      exact .inl harg
    · exact .inr (.inl hdecl)
    · rw [hother y hy]
      exact .inr (.inr hfree)

theorem mem_declared_map_fst : x ∈ declared (parts.map Prod.fst) ↔ ∃ f ∈ parts, f.1.statement = .label x := by
  simp [mem_declared_iff]

/-- A label of one part that another part refers to is written there, or is one from around. -/
theorem mentions_elsewhere (hstands : ∀ f ∈ above ++ e :: below, f.1.StandsFor t f.2)
    (ht : t.Proper fun _ => outer) (hnodup : (declared ((above ++ e :: below).flatMap Prod.snd)).Nodup)
    (hx : x ∈ declared e.2) (h : Mentions ((above ++ below).flatMap Prod.snd) x) :
    Mentions ((above ++ below).map Prod.fst) x ∨ outer x := by
  obtain ⟨l, hl, hxl⟩ := h
  obtain ⟨f, hf, hlf⟩ := List.mem_flatMap.1 hl
  have hfp : f ∈ above ++ e :: below := List.perm_middle.mem_iff.2 (List.mem_cons_of_mem e hf)
  rcases (hstands f hfp).mentions ht ⟨l, hlf, hxl⟩ with hwritten | hdecl | hfree
  · exact .inl ⟨f.1, List.mem_map_of_mem hf, hwritten⟩
  · exact absurd hdecl (notMem_declared_of_nodup hnodup hx hf)
  · exact .inr hfree

/-- What is declared for a call is not declared by a line of the same scope. -/
theorem notMem_declared_of_call (hstands : ∀ f ∈ parts, f.1.StandsFor t f.2)
    (hnodup : (declared (parts.flatMap Prod.snd)).Nodup) (he : e ∈ parts) {name : String} {args : List Operand}
    (hl : e.1.statement = .call name args) (hx : x ∈ declared e.2) : x ∉ declared (parts.map Prod.fst) := by
  intro hmem
  obtain ⟨f, hf, hlf⟩ := mem_declared_map_fst.1 hmem
  obtain ⟨above, below, rfl⟩ := List.append_of_mem he
  rcases List.mem_cons.1 (List.perm_middle.mem_iff.1 hf) with rfl | hfe
  · cases hl.symm.trans hlf
  · exact notMem_declared_of_nodup hnodup hx hfe ((hstands f hf).declares hlf)

/-- **Privacy from the checks of each line**, which are made with the labels of the lines above as they came out,
and with those of the lines below as they are written. -/
theorem Private.of_parts (ht : t.Proper fun _ => outer) (houter : ∀ x, outer x → ¬ Reserved x)
    (hnodup : (declared (parts.flatMap Prod.snd)).Nodup)
    (hparts : ∀ above e below, parts = above ++ e :: below → e.1.StandsFor t e.2 ∧
      ∀ x, .label x ∈ e.1.statement.operands →
        outer x ∨ x ∈ declared (above.flatMap Prod.snd) ++ declared (e.1 :: below.map Prod.fst)) :
    Private t outer parts := by
  have hstands : ∀ e ∈ parts, e.1.StandsFor t e.2 := fun e he => by
    obtain ⟨above, below, hsplit⟩ := List.append_of_mem he
    exact (hparts above e below hsplit).1
  refine ⟨hstands, hnodup, ?_, ?_, ?_⟩
  · intro above e below x hsplit hx
    rcases (hparts above e below hsplit).2 x hx with hx | hx
    · exact .inr (.inl hx)
    rcases List.mem_append.1 hx with hx | hx
    · obtain ⟨f, hf, hxf⟩ := mem_declared_flatMap.1 hx
      have hfp : f ∈ parts := hsplit ▸ List.mem_append_left _ hf
      rcases (hstands f hfp).mem_declared ht.wellFormed hxf with hl | hreserved
      · exact .inl (mem_declared_map_fst.2 ⟨f, hfp, hl⟩)
      · exact .inr (.inr ⟨hreserved, hx⟩)
    · left
      rw [hsplit, List.map_append, declared_append, List.map_cons]
      exact List.mem_append_right _ hx
  · rintro above e below name args x rfl hl hx
    have hreserved := (hparts above e below rfl).1.reserved_of_call ht.wellFormed hl hx
    refine ⟨hreserved, fun hmentions => ?_⟩
    exact (mentions_elsewhere hstands ht hnodup hx hmentions).resolve_right fun hfree => houter x hfree hreserved
  · intro e he name args x hl hx hmentions
    rcases (hstands e he).mentions ht hmentions with hwritten | hdecl | hfree
    · rw [hl] at hwritten
      exact .inl hwritten
    · exact absurd hx (notMem_declared_of_call hstands hnodup he hl hdecl)
    · exact .inr hfree

end Parts

end Line

/-- What a definition records keeps its labels private. -/
def Block.KeepsPrivate (t : MacroTable) (outer : String → Prop) (b : Block) : Prop :=
  ∃ m parts, t[b.name]? = some m ∧ parts.map Prod.fst = b.body ∧ parts.flatMap Prod.snd = m.body ∧
    Line.Private t outer parts

/-! ## What is checked of one line -/

theorem Scope.knows_of_checkCall {scope : Scope} {s : Symbols} {name x : String} {args : List Operand}
    (h : scope.checkCall s name args = .ok ()) (hx : .label x ∈ args) : scope.knows s.labels x = true := by
  have harg := (Scope.checkCall_eq_ok_iff.1 h).2.1 _ hx
  exact ensure_eq_ok_iff.1 (check_bind_eq_ok.1 harg).2

theorem Executable.mem_labels {labels : LabelTable} {ops : List Operand} (h : Executable labels ops) {x : String}
    (hx : .label x ∈ ops) : x ∈ labels := by
  cases h with
  | next a b => simp at hx
  | address a b c hc => simp at hx
  | label a b name hname =>
    obtain rfl : x = name := by simpa using hx
    exact hname

namespace Symbols

variable {s s' s₀ : Symbols} {t : MacroTable} {line : Line} {lines program S : List Line} {outer : String → Prop}
  {b : Block}

theorem standsFor_of_expand {scope : Scope} {name : String} {args : List Operand} (ht : s.macros.Extends t)
    (hl : line.statement = .call name args) (h : s.expand scope line name args = .ok (lines, s')) :
    line.StandsFor t lines := by
  obtain ⟨m, hm, rfl, -, -⟩ := expand_eq_ok_iff.1 h
  obtain ⟨m', hm', e⟩ := ht name m hm
  have hlocals := Macro.locals_eq_of_uncounted e
  rw [Macro.instantiate, Macro.body_eq_of_uncounted e]
  exact .expansion hl hm' (fun l hl => Scope.freshNames_of_notMem (hlocals ▸ hl))
    fun l hl => Scope.freshNames_reserved (hlocals ▸ hl)

/-- A line of the program is replaced by what it stands for, and the labels that it names are in the table. -/
theorem standsFor_of_expandLine (ht : s.macros.Extends t) (h : s.expandLine line = .ok (lines, s')) :
    line.StandsFor t lines ∧ ∀ x, .label x ∈ line.statement.operands → x ∈ s.labels := by
  rcases expandLine_eq_ok h with ⟨hl, rfl, -⟩ | ⟨⟨name, hl⟩, rfl, -⟩ | ⟨ops, hl, hops, rfl, -⟩ |
    ⟨name, args, hl, he⟩
  · refine ⟨.nothing hl, fun x hx => ?_⟩
    rcases hl with hl | hl
    · simp [hl, Statement.operands] at hx
    · simp [hl, Statement.operands] at hx
  · exact ⟨.itself (.inl ⟨name, hl⟩), by simp [hl, Statement.operands]⟩
  · refine ⟨.itself (.inr ⟨ops, hl⟩), fun x hx => hops.mem_labels ?_⟩
    rwa [hl] at hx
  · refine ⟨standsFor_of_expand ht hl he, fun x hx => ?_⟩
    rw [hl] at hx
    unfold expandLine at h
    simp only [hl] at h
    rw [check_bind_eq_ok, mapError_eq_ok] at h
    exact Scope.knows_program.1 (Scope.knows_of_checkCall h.1 hx)

/-- A line of a definition is replaced by what it stands for, and the labels that it names are known. -/
theorem standsFor_of_step {params : Nat} {d d' : Block.Draft} (ht : d.symbols.macros.Extends t)
    (h : d.step b params line = .ok d') :
    ∃ piece, d'.body.toList = d.body.toList ++ piece ∧ line.StandsFor t piece ∧
      ∀ x, .label x ∈ line.statement.operands → x ∈ d.locals ∨ x ∈ d.symbols.labels := by
  rcases Block.Draft.step_eq_ok_iff.1 h with ⟨hl, rfl⟩ | ⟨name, hl, rfl⟩ | ⟨ops, hl, hcheck, rfl⟩ |
    ⟨name, args, lines, symbols, hl, hcheck, he, rfl⟩
  · exact ⟨[], (List.append_nil _).symm, .nothing (.inl hl), by simp [hl, Statement.operands]⟩
  · exact ⟨[line], Array.toList_push, .itself (.inl ⟨name, hl⟩), by simp [hl, Statement.operands]⟩
  · refine ⟨[line], Array.toList_push, .itself (.inr ⟨ops, hl⟩), fun x hx => ?_⟩
    rw [hl] at hx
    exact (Scope.checkInstruction_definition.1 hcheck).known_of_mem hx
  · refine ⟨lines, by simp, standsFor_of_expand ht hl he, fun x hx => ?_⟩
    rw [hl] at hx
    exact Scope.knows_definition.1 (Scope.knows_of_checkCall hcheck hx)

/-! ## Runs over lines -/

theorem foldlM_of_expandAll (h : s.expandAll program = .ok (S, s')) :
    program.foldlM expandAfter (#[], s) = .ok (S.toArray, s') := by
  rw [foldlM_expandAfter, h]
  simp [Functor.map, Except.map]

theorem expandAfter_eq_ok {done done' : Array Line} (h : expandAfter (done, s) line = .ok (done', s')) :
    ∃ lines, s.expandLine line = .ok (lines, s') ∧ done'.toList = done.toList ++ lines := by
  obtain ⟨⟨lines, s₁⟩, hline, h⟩ := bind_eq_ok.1 h
  cases pure_eq_ok.1 h
  exact ⟨lines, hline, by simp⟩

/-- **Run**: the program keeps the labels of expansions private. -/
theorem expandAll_private (hs : Expanding [] s program) (ht : s.macros.Proper fun _ => outer)
    (houter : ∀ x, outer x → ¬ Reserved x) (h : s.expandAll program = .ok (S, s')) :
    ∃ parts, parts.map Prod.fst = program ∧ parts.flatMap Prod.snd = S ∧ Line.Private s.macros outer parts := by
  have hnodup : (Line.declared S).Nodup := by
    rw [← List.append_nil program] at hs
    simpa using (hs.expandAll h).nodup
  obtain ⟨parts, hfst, hsnd, hparts⟩ := foldlM_parts
    (fun (r : Array Line × Symbols) rest => Expanding r.1.toList r.2 rest ∧ s.macros.SameCode r.2.macros)
    (fun r => r.1.toList) (fun r line rest r' hr hstep => by
      obtain ⟨lines, hline, hdone⟩ := expandAfter_eq_ok hstep
      exact ⟨hdone ▸ hr.1.step hline, hr.2.trans (expandLine_keeps hline).1⟩)
    (fun r line r' hstep => by
      obtain ⟨lines, -, hdone⟩ := expandAfter_eq_ok hstep
      exact ⟨lines, hdone⟩) ⟨hs, .refl _⟩ (foldlM_of_expandAll h)
  obtain rfl : parts.flatMap Prod.snd = S := by simpa using hsnd.symm
  refine ⟨parts, hfst, rfl, .of_parts ht houter hnodup fun above e below hsplit => ?_⟩
  obtain ⟨r, r', ⟨hexpanding, hcode⟩, hstep, habove, hpiece⟩ := hparts above e below hsplit
  obtain ⟨lines, hline, hdone⟩ := expandAfter_eq_ok hstep
  obtain ⟨hstands, hknown⟩ := standsFor_of_expandLine hcode.symm.extends hline
  obtain rfl : lines = e.2 := List.append_cancel_left (hdone.symm.trans hpiece)
  have habove' : r.1.toList = above.flatMap Prod.snd := by simpa using habove
  refine ⟨hstands, fun x hx => .inr ?_⟩
  rw [← habove']
  exact hexpanding.mem_labels.1 (hknown x hx)

/-- **A definition keeps the labels of expansions private**, told with any later table. -/
theorem define_private (hs : s.macros.All Macro.WellFormed) (hb : ∀ l ∈ b.body, l.InRange)
    (h : s.define b = .ok s') (hext : s'.macros.Extends t) (ht : t.Proper fun _ => outer)
    (hlabels : ∀ x ∈ s.labels, outer x) (houter : ∀ x, outer x → ¬ Reserved x) : b.KeepsPrivate t outer := by
  have hwf := (define_wellFormed hs hb h).1
  have hextends := (extends_define h).trans hext
  obtain ⟨params, locals, d, -, hlocals, hd, rfl⟩ := define_eq_ok h
  have hget := getElem?_insert_name d.symbols.macros b.name b.name
    ⟨params, d.body.toList, d.dependencies, d.locals, 0, 0⟩
  rw [if_pos rfl] at hget
  obtain ⟨m, hm, e⟩ := hext b.name _ hget
  have hbody : d.body.toList = m.body := Macro.body_eq_of_uncounted e
  obtain ⟨parts, hfst, hsnd, hparts⟩ := foldlM_parts
    (fun (d : Block.Draft) rest => d.Sound s.labels rest ∧ d.symbols.macros.Extends t) (fun d => d.body.toList)
    (fun d line rest d' hd hstep => ⟨hd.1.step hstep, (Block.Draft.sameCode_step hstep).1.symm.extends.trans hd.2⟩)
    (fun d line d' hstep => by
      obtain ⟨piece, hpiece, -⟩ := Block.Draft.body_step hstep
      exact ⟨piece, hpiece⟩) ⟨.start hs hb hlocals, hextends⟩ hd
  have hparts' : parts.flatMap Prod.snd = m.body := by simpa [hbody] using hsnd.symm
  have hnodup : (Line.declared (parts.flatMap Prod.snd)).Nodup := by
    rw [hparts']
    exact ((hwf b.name _ hget).of_uncounted e).nodup
  refine ⟨m, parts, hm, hfst, hparts', .of_parts ht houter hnodup fun above e below hsplit => ?_⟩
  obtain ⟨d₁, d₂, ⟨hsound, hext₁⟩, hstep, habove, hpiece⟩ := hparts above e below hsplit
  obtain ⟨piece, hbody', hstands, hknown⟩ := standsFor_of_step hext₁ hstep
  obtain rfl : piece = e.2 := List.append_cancel_left (hbody'.symm.trans hpiece)
  have habove' : d₁.body.toList = above.flatMap Prod.snd := by simpa using habove
  refine ⟨hstands, fun x hx => ?_⟩
  rcases hknown x hx with hlocal | hlabel
  · rw [← habove']
    exact .inr ((hsound.mem_known x).1 hlocal)
  · exact .inl (hlabels x (hsound.labels_eq ▸ hlabel))

/-- **Run**: definitions one after the other keep the labels of expansions private. -/
theorem defineAll_private {blocks : List Block} (hs : s.macros.Proper fun _ => outer)
    (hb : ∀ b ∈ blocks, ∀ l ∈ b.body, l.InRange) (hlabels : ∀ x ∈ s.labels, outer x)
    (houter : ∀ x, outer x → ¬ Reserved x) (h : blocks.foldlM Symbols.define s = .ok s') (hmem : b ∈ blocks) :
    b.KeepsPrivate s'.macros outer := by
  have ht := (defineAll_proper hs hb (fun _ _ _ => hlabels) h).1
  obtain ⟨before, after, rfl⟩ := List.append_of_mem hmem
  obtain ⟨s₁, s₂, hs₁, hs₂, h⟩ := exists_of_foldlM_append_cons h
  obtain ⟨hwf, hlabels₁⟩ := defineAll_wellFormed hs.wellFormed
    (fun b' hb' => hb b' (List.mem_append_left _ hb')) hs₁
  refine define_private hwf (hb b hmem) hs₂ ?_ ht (hlabels₁ ▸ hlabels) houter
  refine foldlM_define_keeps (P := fun t => s₂.macros.Extends t.macros) ?_ (.refl _) h
  intro t t' b' ht _ hstep
  exact ht.trans (extends_define hstep)

end Symbols

/-! ## Imports

Where the first source can be loaded, every import statement that is met can be carried out. -/

namespace Import

variable {tree : FileTree} {origin₀ origin : Origin} {text₀ text : String} {owner : Owner} {chain : List Location}
  {s inner : Symbols} {line : Line} {rest lines : List Line} {blocks : List Block}

theorem AtImport.exists_add (h : AtImport tree chain origin text s (line :: rest))
    (hload : load tree chain {} origin text = .ok (lines, inner)) :
    ∃ s', add tree chain origin.directory s line = .ok s' := by
  obtain ⟨lines', before, hread, hlines, hbefore⟩ := h
  obtain ⟨hread', hadd⟩ := load_eq_ok_iff.1 hload
  cases hread.symm.trans hread'
  rw [hlines] at hadd
  obtain ⟨s₁, s₂, hs₁, hs₂, -⟩ := exists_of_foldlM_append_cons hadd
  cases hbefore.symm.trans hs₁
  exact ⟨s₂, hs₂⟩

theorem Loading.exists_load (h : Loading tree origin₀ text₀ owner chain origin text)
    (hroot : ∃ r, load tree (rootChain tree origin₀) {} origin₀ text₀ = .ok r) :
    ∃ r, load tree chain {} origin text = .ok r := by
  induction h with
  | root => exact hroot
  | @imported owner chain origin text s line rest clause f _ hs hnames _ ih =>
    obtain ⟨⟨lines, inner⟩, hload⟩ := ih
    obtain ⟨s', hadd⟩ := hs.exists_add hload
    obtain ⟨clause', f', lines', inner', -, -, hnames', -, hload', -⟩ := add_eq_ok_iff.1 hadd
    obtain rfl : clause = clause' := Except.ok.inj (hnames.1.symm.trans hnames'.1)
    obtain rfl : f = f' := Option.some.inj (hnames.2.symm.trans hnames'.2)
    exact ⟨_, hload'⟩

theorem Selected.exists_defined (h : Selected tree origin₀ text₀ owner s inner blocks)
    (hroot : ∃ r, load tree (rootChain tree origin₀) {} origin₀ text₀ = .ok r) :
    ∃ inner', blocks.foldlM Symbols.define inner = .ok inner' := by
  obtain ⟨hloading, hs, hnames, -, hload, hselect, -⟩ := h
  obtain ⟨⟨lines₀, s₀⟩, hload₀⟩ := hloading.exists_load hroot
  obtain ⟨s', hadd⟩ := hs.exists_add hload₀
  obtain ⟨clause', f', lines', inner₁, inner', blocks', hnames', -, hload', hselect', -, hdefine, -⟩ :=
    add_eq_ok_iff.1 hadd
  cases Except.ok.inj (hnames.1.symm.trans hnames'.1)
  cases Option.some.inj (hnames.2.symm.trans hnames'.2)
  cases hload.symm.trans hload'
  cases hselect.symm.trans hselect'
  exact ⟨inner', hdefine⟩

/-- The one import statement of a source, and the names that it brings. -/
theorem exists_selected_of_load {s : Symbols} (hload : load tree (rootChain tree origin₀)
    {} origin₀ text₀ = .ok (lines, s))
    (hline : lines.filter Line.isImport = [line]) :
    ∃ inner blocks, Selected tree origin₀ text₀ .root {} inner blocks ∧
      ∀ k ∈ s.macros, ∃ b ∈ blocks, b.name = k := by
  obtain ⟨hread, hadd⟩ := load_eq_ok_iff.1 hload
  have hat : AtImport tree (rootChain tree origin₀) origin₀ text₀ {} [line] := ⟨lines, [], hread, hline, rfl⟩
  rw [hline, List.foldlM_cons, bind_eq_ok] at hadd
  obtain ⟨s₁, hadd, hs₁⟩ := hadd
  cases pure_eq_ok.1 hs₁
  obtain ⟨clause, f, lines', inner, inner', blocks, hnames, hf, hload', hselect, hnew, -, rfl⟩ :=
    add_eq_ok_iff.1 hadd
  refine ⟨inner, blocks, .intro .root hat hnames hf hload' hselect hnew, fun k hk => ?_⟩
  rw [mem_iff_exists_getElem?] at hk
  obtain ⟨m, hm⟩ := hk
  rw [getElem?_copy] at hm
  split_ifs at hm with hcopied
  · exact hcopied.1
  · simp at hm

end Import

/-! ## Sources -/

namespace Assembly

variable {tree : FileTree} {origin : Origin} {text : String} {product : Product}

/-- **The labels of expansions are private, unless their names are written out.**  An instruction of the stream
refers to labels by their places in it.  In the program and in the definitions of the source, lines name labels of
their own scope or of the program; in a file that is imported, labels of their own definition.  Else the name is
reserved, and the label is one of an expansion further up. -/
theorem run_keeps_labels_private (h : (run tree origin text).outcome = .ok product) :
    ∃ p s₀ S s, (prepare tree origin text).2 = .ok p ∧ p.blocks.foldlM Symbols.define p.symbols = .ok s₀ ∧
      s₀.expandAll p.program = .ok (S, s) ∧
      (∀ i ops, (Line.instructions S)[i]? = some ops →
        ∃ ins, product.program[i]? = some ins ∧ Resolved S i ops ins) ∧
      (∃ parts, parts.map Prod.fst = p.program ∧ parts.flatMap Prod.snd = S ∧
        Line.Private s₀.macros (· ∈ Line.declared p.program) parts) ∧
      (∀ b ∈ p.blocks, b.KeepsPrivate s₀.macros (· ∈ Line.declared p.program)) ∧
      ∀ owner importing inner blocks, Import.Selected tree origin text owner importing inner blocks →
        ∃ inner', blocks.foldlM Symbols.define inner = .ok inner' ∧
          ∀ b ∈ blocks, b.KeepsPrivate inner'.macros fun _ => False := by
  obtain ⟨S, s, hstream, hlay⟩ := run_eq_ok h
  obtain ⟨-, -, -, hres⟩ := layOut_spec (stream_expanding hstream) hlay
  obtain ⟨p, s₀, hp, hs₀, hexp⟩ := stream_eq_ok hstream
  obtain ⟨hclosed, hlabels, hrange⟩ := prepare_closed hp
  have hreserved : ∀ x, x ∈ Line.declared p.program → ¬ Reserved x := fun x hx => not_reserved_of_prepare hp hx
  have houter : ∀ x ∈ p.symbols.labels, x ∈ Line.declared p.program := by
    intro x hx
    rw [hlabels, LabelTable.mem_declare] at hx
    exact hx.resolve_left Std.ExtTreeMap.not_mem_empty
  have hproper : p.symbols.macros.Proper fun _ => (· ∈ Line.declared p.program) := .of_closed hclosed
  have hproper₀ := (Symbols.defineAll_proper hproper hrange (fun _ _ _ => houter) hs₀).1
  refine ⟨p, s₀, S, s, hp, hs₀, hexp, hres, Symbols.expandAll_private (prepare_expanding hp hs₀)
    hproper₀ hreserved hexp,
    fun b hb => Symbols.defineAll_private hproper hrange houter hreserved hs₀ hb, ?_⟩
  intro owner importing inner blocks hselected
  obtain ⟨lines, s₁, hload, -, -⟩ := prepare_eq_ok hp
  obtain ⟨inner', hdefine⟩ := hselected.exists_defined ⟨_, hload⟩
  obtain ⟨-, hinner, hempty⟩ := hselected.closed
  refine ⟨inner', hdefine, fun b hb => ?_⟩
  exact Symbols.defineAll_private (.of_closed hinner) hselected.inRange (by simp [hempty]) (by simp) hdefine hb

/-! ## A source whose labels are private

The macro `back` of the source calls the imported macro `hop`, and no line of the program names a label. -/

theorem run_libraryUse :
    ∃ product p s₀ S s, (run library {} libraryUse).outcome = .ok product ∧
      (prepare library {} libraryUse).2 = .ok p ∧ p.blocks.foldlM Symbols.define p.symbols = .ok s₀ ∧
      s₀.expandAll p.program = .ok (S, s) ∧ p.program.map Line.statement = .importing :: List.replicate 4 .blank ++
        [.label "start", .call "back" [.number 5], .instruction [.number 3, .number 4]] ∧
      p.blocks.map Block.name = ["back"] ∧ Line.declared S = ["start", "Mback_Mhop_over_1_1"] := by
  have hdepth : (library.readable.filter (· ∉ Import.rootChain library {})).length < 2 := by decide +kernel
  refine exists_passes ?_
  rw [prepare_of_load (Import.loadWithin_eq (fun _ _ => .ok ([], {})) hdepth _ _ _).symm]
  decide +kernel

theorem load_libraryUse : ∃ lines s line, Import.load library (Import.rootChain library {}) {}
    {} libraryUse = .ok (lines, s) ∧ lines.filter Line.isImport = [line] ∧ "hop" ∈ s.macros := by
  have heval : ((Import.load library (Import.rootChain library {}) {} {} libraryUse).toOption.map fun r =>
      ((r.1.filter Line.isImport).length, r.2.macros.contains "hop")) = some (1, true) := by
    have hdepth : (library.readable.filter (· ∉ Import.rootChain library {})).length < 2 := by decide +kernel
    rw [← Import.loadWithin_eq (fun _ _ => .ok ([], {})) hdepth]
    decide +kernel
  obtain ⟨⟨lines, s⟩, hload, hfields⟩ := Option.map_eq_some_iff.1 heval
  obtain ⟨hlength, hhop⟩ := Prod.mk.inj hfields
  obtain ⟨line, hline⟩ := List.length_eq_one_iff.1 hlength
  exact ⟨lines, s, line, toOption_eq_some.1 hload, hline, Std.ExtTreeMap.contains_iff_mem.1 hhop⟩

/-- Nothing refers to the label that `back` has from `hop`, but for the expansion of `back` itself. -/
theorem run_keeps_labels_private_libraryUse :
    ∃ (product : Product) (p : Prepared) (s₀ s : Symbols) (S : List Line) (parts : List (Line × List Line)),
      (run library {} libraryUse).outcome = .ok product ∧ (prepare library {} libraryUse).2 = .ok p ∧
      s₀.expandAll p.program = .ok (S, s) ∧ parts.map Prod.fst = p.program ∧ parts.flatMap Prod.snd = S ∧
      Line.declared S = ["start", "Mback_Mhop_over_1_1"] ∧
      (∀ above e below name args x, parts = above ++ e :: below → e.1.statement = .call name args →
        x ∈ Line.declared e.2 → Reserved x ∧ ¬ Line.Mentions ((above ++ below).flatMap Prod.snd) x) ∧
      (∃ b ∈ p.blocks, b.name = "back" ∧ b.KeepsPrivate s₀.macros (· ∈ Line.declared p.program)) ∧
      ∃ inner blocks inner', Import.Selected library {} libraryUse .root {} inner blocks ∧
        blocks.foldlM Symbols.define inner = .ok inner' ∧
        ∃ b ∈ blocks, b.name = "hop" ∧ b.KeepsPrivate inner'.macros fun _ => False := by
  obtain ⟨product, p, s₀, S, s, h, hp, hs₀, hexp, hstatements, hblocks, hdeclared⟩ := run_libraryUse
  obtain ⟨p', s₀', S', s', hp', hs₀', hexp', -, ⟨parts, hfst, hsnd, hprivate⟩, hdefinitions, himports⟩ :=
    run_keeps_labels_private h
  -- the passes of the theorem are these
  cases hp.symm.trans hp'
  cases hs₀.symm.trans hs₀'
  cases hexp.symm.trans hexp'
  have hplain : ∀ x, ¬ Line.Mentions p.program x := by
    rintro x ⟨l, hl, hx⟩
    have hstatement : l.statement ∈ p.program.map Line.statement := List.mem_map_of_mem hl
    rw [hstatements] at hstatement
    simp only [List.mem_append, List.mem_cons, List.mem_replicate, List.not_mem_nil, or_false] at hstatement
    rcases hstatement with (hl | ⟨-, hl⟩) | hl | hl | hl
    all_goals simp [hl, Statement.operands] at hx
  refine ⟨product, p, s₀, s, S, parts, h, hp, hexp, hfst, hsnd, hdeclared, ?_, ?_, ?_⟩
  · intro above e below name args x hsplit hl hx
    obtain ⟨hreserved, hmentions⟩ := hprivate.hidden above e below name args x hsplit hl hx
    refine ⟨hreserved, fun hmention => ?_⟩
    obtain ⟨l, hmem, hxl⟩ := hmentions hmention
    have hl' : l ∈ e.1 :: (above ++ below).map Prod.fst := List.mem_cons_of_mem _ hmem
    have hperm : (parts.map Prod.fst).Perm (e.1 :: (above ++ below).map Prod.fst) := by
      rw [hsplit]
      exact List.perm_middle.map Prod.fst
    exact hplain x ⟨l, hfst ▸ hperm.mem_iff.2 hl', hxl⟩
  · obtain ⟨b, hb, hname⟩ := List.mem_map.1 (hblocks ▸ List.mem_cons_self : "back" ∈ p.blocks.map Block.name)
    exact ⟨b, hb, hname, hdefinitions b hb⟩
  · obtain ⟨lines, s₁, line, hload, hline, hhop⟩ := load_libraryUse
    obtain ⟨inner, blocks, hselected, hnames⟩ := Import.exists_selected_of_load hload hline
    obtain ⟨inner', hdefine, hkeeps⟩ := himports _ _ _ _ hselected
    obtain ⟨b, hb, hname⟩ := hnames "hop" hhop
    exact ⟨inner, blocks, inner', hselected, hdefine, b, hb, hname, hkeeps b hb⟩

/-! ## A name that is written out

The program calls a macro with a label of its own, and then names this label as the call has named it. -/

def leak : String := "%macro spin 0\nagain:\n0, 0, again\n%endmacro\nspin\n0, 0, Mspin_again_1\n"

theorem run_leak :
    ∃ product p s₀ S s, (run {} {} leak).outcome = .ok product ∧ (prepare {} {} leak).2 = .ok p ∧
      p.blocks.foldlM Symbols.define p.symbols = .ok s₀ ∧ s₀.expandAll p.program = .ok (S, s) ∧
      p.program.map Line.statement = List.replicate 4 .blank ++
        [.call "spin" [], .instruction [.number 0, .number 0, .label "Mspin_again_1"]] ∧
      (Line.instructions S)[1]? = some [.number 0, .number 0, .label "Mspin_again_1"] ∧
      Line.position? "Mspin_again_1" S = some 0 ∧ product.program[1]? = some ⟨0, 0, 0⟩ := by
  refine exists_passes ?_
  rw [prepare_of_load (Import.load_eq _ _ _ _ _)]
  decide +kernel

/-- **A label of an expansion is reached from outside**: a line of the program names a label that the program does
not declare, and is assembled as a branch to the label of the macro. -/
theorem written_name_reaches_expansion :
    ∃ (product : Product) (p : Prepared) (s₀ s : Symbols) (S : List Line) (line : Line) (x : String),
      (run {} {} leak).outcome = .ok product ∧ (prepare {} {} leak).2 = .ok p ∧
      p.blocks.foldlM Symbols.define p.symbols = .ok s₀ ∧ s₀.expandAll p.program = .ok (S, s) ∧ line ∈ p.program ∧
      line.statement = .instruction [.number 0, .number 0, .label x] ∧ x ∉ Line.declared p.program ∧ Reserved x ∧
      (Line.instructions S)[1]? = some [.number 0, .number 0, .label x] ∧ Line.position? x S = some 0 ∧
      product.program[1]? = some ⟨0, 0, 0⟩ := by
  obtain ⟨product, p, s₀, S, s, h, hp, hs₀, hexp, hstatements, hinstruction, hposition, hproduct⟩ := run_leak
  have hmem : .instruction [.number 0, .number 0, .label "Mspin_again_1"] ∈ p.program.map Line.statement := by
    simp [hstatements]
  obtain ⟨line, hline, hl⟩ := List.mem_map.1 hmem
  exact ⟨product, p, s₀, s, S, line, "Mspin_again_1", h, hp, hs₀, hexp, hline, hl,
    by simp [Line.mem_declared_iff, hstatements], rfl, hinstruction, hposition, hproduct⟩

end Assembly

end Abcout
