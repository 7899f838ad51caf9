import Abcout.Proofs.Contexts
import Abcout.Proofs.Rendering

/-!
# Abcout.Proofs.Faithful — the text of every line says what the line says

Lines of a file are faithful as they are read.  An expansion writes its lines anew, from operands and fresh names;
they are faithful as all names in them are words and all numbers are in range, however often an expansion goes into
another one.

* `Symbols.expand_faithful`: the lines of a call.
* `Transcribed`: what expansion keeps, in a definition as in the program.
* `Symbols.define_legible`: a definition adds one record with faithful lines.
* `Assembly.lines_faithful`: all records of a run, and its stream.
-/

namespace Abcout

/-- A well-formed record with faithful lines, whose local labels are words. -/
structure Macro.Legible (m : Macro) : Prop extends m.WellFormed where
  faithful : ∀ l ∈ m.body, l.Faithful
  words : ∀ x ∈ m.locals, isWord x.toList = true

theorem Macro.Legible.of_uncounted {m m' : Macro} (h : m.Legible) (e : m.uncounted = m'.uncounted) : m'.Legible :=
  ⟨h.toWellFormed.of_uncounted e, Macro.body_eq_of_uncounted e ▸ h.faithful,
    Macro.locals_eq_of_uncounted e ▸ h.words⟩

/-! ## Calls -/

/-- A call that is read names its macro by a word. -/
theorem Statement.isWord_of_call {text : List Char} {name : String} {args : List Operand}
    (h : parse text = .ok (.call name args)) : isWord name.toList = true := by
  unfold parse at h
  split_ifs at h
  · cases h
  · cases h
  · split at h
    · cases h
    · unfold parsePercent at h
      split_ifs at h
      · cases h
      · unfold ofOpeningWords at h
        split at h <;> cases h
      · obtain ⟨ops, -, hops⟩ := map_eq_ok.1 h
        cases hops
      · cases h
    · unfold parseCode at h
      simp only at h
      split_ifs at h with hname
      · obtain ⟨ops, -, hops⟩ := map_eq_ok.1 h
        cases hops
        rw [String.toList_ofList]
        exact isWord_of_isIdentifier (Bool.and_eq_true_iff.1 hname).1
      · obtain ⟨ops, -, hops⟩ := map_eq_ok.1 h
        cases hops

/-- The labels of an expansion are made of the macro's name and its local labels, so they are words as these
are. -/
theorem Macro.Legible.isWord_declared {m : Macro} (h : m.Legible) {name : String}
    (hname : isWord name.toList = true) (scope : Scope) (labels : LabelTable) (args : List Operand) (site : Line) :
    ∀ x ∈ Line.declared (m.instantiate args (scope.freshNames labels name m) site), isWord x.toList = true := by
  intro x hx
  rw [declared_instantiate] at hx
  obtain ⟨l, hl, rfl⟩ := List.mem_map.1 hx
  have hlocal := (h.mem_locals l).2 hl
  obtain ⟨k, hk⟩ := Scope.exists_freshNames_eq hlocal
  rw [hk]
  exact isWord_candidate hname (h.words l hlocal) _ k

/-- **The lines of a call are faithful**, where all labels that are known are words. -/
theorem Symbols.expand_faithful {s s' : Symbols} {scope : Scope} {site : Line} {name : String}
    {args : List Operand} {lines : List Line} (hs : s.macros.All Macro.Legible) (hsite : site.Faithful)
    (hcall : site.statement = .call name args)
    (hknown : ∀ x, scope.knows s.labels x = true → isWord x.toList = true)
    (h : s.expand scope site name args = .ok (lines, s')) :
    (∀ l ∈ lines, l.Faithful) ∧ ∀ x ∈ Line.declared lines, isWord x.toList = true := by
  obtain ⟨m, hm, hlines, haccept, -⟩ := Symbols.expand_eq_ok_iff.1 h
  have hlegible := hs name m hm
  have hargs : ∀ arg ∈ args, arg.InRange := by
    have hrange := hsite.inRange
    rw [Line.InRange, hcall] at hrange
    exact hrange
  have hcode := isCode_instantiate m args (scope.freshNames s.labels name m) site hlegible.isCode
  have hrange := inRange_instantiate m args (scope.freshNames s.labels name m) site hlegible.inRange
    hlegible.isCode hargs
  have hname : isWord name.toList = true := by
    rw [Line.Faithful, hcall] at hsite
    exact Statement.isWord_of_call hsite
  have hwords := hlegible.isWord_declared hname scope s.labels args site
  rw [← hlines] at hcode hrange hwords
  refine ⟨fun l hl => ?_, hwords⟩
  have htext : l.text = l.statement.render := by
    rw [hlines] at hl
    obtain ⟨l', -, rfl⟩ := List.mem_map.1 hl
    rfl
  rw [Line.Faithful, htext]
  rcases hcode l hl with ⟨x, hstmt⟩ | ⟨ops, hstmt⟩
  · rw [hstmt]
    exact Statement.parse_label x
  · obtain ⟨params, htemplate⟩ := Scope.exists_template (Scope.checkInstruction_of_accepts hstmt (haccept l hl))
    rw [hstmt]
    refine Statement.parse_template htemplate fun op hop => ⟨hrange l hl op (by rw [hstmt]; exact hop), ?_⟩
    rintro x rfl
    rcases Scope.knows_withLocals.1 (htemplate.known_of_mem hop) with hx | hx
    · exact hknown x hx
    · exact hwords x hx

/-! ## Lines that are being expanded -/

/-- Lines that are expanded up to `rest`: those made and those to come are faithful, and names that are `known` are
words. -/
structure Transcribed (t : MacroTable) (known : String → Prop) (done rest : List Line) : Prop where
  macros : t.All Macro.Legible
  words : ∀ x, known x → isWord x.toList = true
  done : ∀ l ∈ done, l.Faithful
  rest : ∀ l ∈ rest, l.Faithful

namespace Transcribed

variable {t : MacroTable} {known known' : String → Prop} {done rest : List Line} {line : Line}

theorem skip (h : Transcribed t known done (line :: rest)) : Transcribed t known done rest :=
  ⟨h.macros, h.words, h.done, (List.forall_mem_cons.1 h.rest).2⟩

/-- A label or an instruction stays as it stands. -/
theorem keep (h : Transcribed t known done (line :: rest)) : Transcribed t known (done ++ [line]) rest := by
  obtain ⟨hline, hrest⟩ := List.forall_mem_cons.1 h.rest
  exact ⟨h.macros, h.words, List.forall_mem_append.2 ⟨h.done, List.forall_mem_singleton.2 hline⟩, hrest⟩

/-- A call brings faithful lines, with labels that are words. -/
theorem call {s s' : Symbols} {scope : Scope} {name : String} {args : List Operand} {lines : List Line}
    (h : Transcribed s.macros known done (line :: rest)) (hl : line.statement = .call name args)
    (hknown : ∀ x, scope.knows s.labels x = true → known x) (he : s.expand scope line name args = .ok (lines, s'))
    (hknown' : ∀ x, known' x → known x ∨ x ∈ Line.declared lines) :
    Transcribed s'.macros known' (done ++ lines) rest := by
  obtain ⟨hline, hrest⟩ := List.forall_mem_cons.1 h.rest
  obtain ⟨hlines, hwords⟩ := Symbols.expand_faithful h.macros hline hl (fun x hx => h.words x (hknown x hx)) he
  obtain ⟨m, -, -, -, rfl⟩ := Symbols.expand_eq_ok_iff.1 he
  refine ⟨h.macros.of_sameCode (Scope.sameCode_countCall _ _ _ _) .of_uncounted, fun x hx => ?_,
    List.forall_mem_append.2 ⟨h.done, hlines⟩, hrest⟩
  rcases hknown' x hx with hx | hx
  · exact h.words x hx
  · exact hwords x hx

end Transcribed

/-! ## Definitions -/

namespace Block.Draft

variable {b : Block} {params : Nat} {d d' : Draft} {line : Line} {rest : List Line}

/-- The names that can be referred to in a definition that is read up to some line. -/
def Known (d : Draft) (x : String) : Prop := x ∈ d.locals ∨ x ∈ d.symbols.labels

/-- **Step**: one more line of a definition. -/
theorem transcribed_step (h : Transcribed d.symbols.macros d.Known d.body.toList (line :: rest))
    (hd : d.step b params line = .ok d') : Transcribed d'.symbols.macros d'.Known d'.body.toList rest := by
  have hpush : (d.body.push line).toList = d.body.toList ++ [line] := Array.toList_push
  rcases step_eq_ok hd with ⟨-, rfl⟩ | ⟨name, -, rfl⟩ | ⟨ops, -, -, rfl⟩ |
    ⟨name, args, lines, symbols, hl, he, rfl⟩
  · exact h.skip
  · exact hpush ▸ h.keep
  · exact hpush ▸ h.keep
  · have hlabels : symbols.labels = d.symbols.labels := by
      obtain ⟨m, -, -, -, rfl⟩ := Symbols.expand_eq_ok_iff.1 he
      rfl
    have hbody : (d.body ++ lines).toList = d.body.toList ++ lines := by simp
    rw [hbody]
    refine h.call hl (fun x hx => Scope.knows_definition.1 hx) he fun x hx => ?_
    rw [Known, NameSet.mem_insertMany_names, hlabels] at hx
    exact or_right_comm.1 hx

end Block.Draft

namespace Symbols

variable {s s' t : Symbols} {blocks : List Block}

/-- The names of the program's labels are words. -/
def Worded (s : Symbols) : Prop := ∀ x ∈ s.labels, isWord x.toList = true

/-- **A definition adds one record with faithful lines.** -/
theorem define_legible {b : Block} (hlabels : s.Worded) (hs : s.macros.All Macro.Legible)
    (hb : ∀ l ∈ b.body, l.Faithful) (h : s.define b = .ok s') : s'.macros.All Macro.Legible := by
  have hwf : s'.macros.All Macro.WellFormed :=
    (define_wellFormed (fun k m hm => (hs k m hm).toWellFormed) (fun l hl => (hb l hl).inRange) h).1
  obtain ⟨params, locals, d, -, hlocals, hd, rfl⟩ := define_eq_ok h
  have hstart : Transcribed s.macros (Block.Draft.Known { symbols := s, locals }) [] b.body := by
    refine ⟨hs, ?_, List.forall_mem_nil _, hb⟩
    rintro x (hx | hx)
    · exact isWord_of_isIdentifier (Block.isIdentifier_of_addLocals hlocals x hx)
    · exact hlabels x hx
  have hend : Transcribed d.symbols.macros d.Known d.body.toList [] :=
    foldlM_keeps (fun (d : Block.Draft) rest => Transcribed d.symbols.macros d.Known d.body.toList rest)
      (fun _ _ _ _ hd hstep => Block.Draft.transcribed_step hd hstep) hstart hd
  intro k m hm
  have hrecord := hwf k m hm
  rw [getElem?_insert_name] at hm
  split_ifs at hm
  · cases hm
    exact ⟨hrecord, hend.done, fun x hx => hend.words x (.inl hx)⟩
  · exact hend.macros k m hm

/-- Definitions make such records at every moment. -/
theorem Defining.legible (ht : s.Defining blocks t) (hlabels : s.Worded) (hs : s.macros.All Macro.Legible)
    (hb : ∀ b ∈ blocks, ∀ l ∈ b.body, l.Faithful) : t.Worded ∧ t.macros.All Macro.Legible := by
  refine Defining.keeps (P := fun t => t.Worded ∧ t.macros.All Macro.Legible) ?_ ?_ ⟨hlabels, hs⟩ ht
  · rintro t t' hcode hlabels' ⟨hworded, hlegible⟩
    exact ⟨fun x hx => hworded x (hlabels' ▸ hx), hlegible.of_sameCode hcode .of_uncounted⟩
  · rintro t t' b ⟨hworded, hlegible⟩ hmem hstep
    refine ⟨fun x hx => hworded x (labels_define hstep ▸ hx), define_legible hworded hlegible (hb b hmem) hstep⟩

/-! ## The program -/

/-- **Step**: one more line of the program. -/
theorem transcribed_expandLine {done rest lines : List Line} {line : Line}
    (h : Transcribed s.macros (· ∈ s.labels) done (line :: rest)) (he : s.expandLine line = .ok (lines, s')) :
    Transcribed s'.macros (· ∈ s'.labels) (done ++ lines) rest := by
  rcases expandLine_eq_ok he with ⟨-, rfl, rfl⟩ | ⟨-, rfl, rfl⟩ | ⟨ops, -, -, rfl, rfl⟩ | ⟨name, args, hl, he⟩
  · rw [List.append_nil]
    exact h.skip
  · exact h.keep
  · exact h.keep
  · refine h.call hl (fun x hx => Scope.knows_program.1 hx) he fun x hx => ?_
    obtain ⟨m, -, -, -, rfl⟩ := expand_eq_ok_iff.1 he
    exact LabelTable.mem_declare.1 hx

/-- **Run**: all lines of the program. -/
theorem transcribed_expandAll {done program lines : List Line}
    (h : Transcribed s.macros (· ∈ s.labels) done program) (he : s.expandAll program = .ok (lines, s')) :
    Transcribed s'.macros (· ∈ s'.labels) (done ++ lines) [] := by
  induction program generalizing s done lines with
  | nil =>
    cases he
    rw [List.append_nil]
    exact h
  | cons line program ih =>
    obtain ⟨now, s₁, later, hnow, hlater, rfl⟩ := expandAll_cons_eq_ok.1 he
    rw [← List.append_assoc]
    exact ih (transcribed_expandLine h hnow) hlater

end Symbols

/-! ## Runs -/

namespace Import

/-- An imported file has no labels, so that nothing has to be asked of their names. -/
theorem define_legible {s s' : Symbols} {b : Block} (hlabels : s.labels = ∅) (hs : s.macros.All Macro.Legible)
    (hb : ∀ l ∈ b.body, l.Faithful) (h : s.define b = .ok s') : s'.macros.All Macro.Legible :=
  Symbols.define_legible (fun x hx => by simp [hlabels] at hx) hs hb h

theorem Selected.defining_legible {tree : FileTree} {origin : Origin} {text : String} {owner : Owner}
    {s inner t : Symbols} {blocks : List Block} (h : Selected tree origin text owner s inner blocks)
    (ht : inner.Defining blocks t) : t.macros.All Macro.Legible := by
  obtain ⟨-, hinner, hlabels⟩ := h.all fun _ _ _ => define_legible
  exact (ht.legible (fun x hx => by simp [hlabels] at hx) hinner h.faithful).2

end Import

namespace Assembly

variable {tree : FileTree} {origin : Origin} {text : String}

/-- What definitions start from. -/
theorem prepare_legible {p : Prepared} (h : (prepare tree origin text).2 = .ok p) :
    p.symbols.Worded ∧ p.symbols.macros.All Macro.Legible := by
  obtain ⟨lines, s, hload, hfault, rfl⟩ := prepare_eq_ok h
  obtain ⟨hlegible, hlabels⟩ := Import.load_all (fun _ _ _ => Import.define_legible) (MacroTable.all_empty _) hload
  refine ⟨fun x hx => ?_, hlegible⟩
  rw [(Label.register_eq hlabels hfault).2, LabelTable.mem_declare] at hx
  have hdeclared := hx.resolve_left Std.ExtTreeMap.not_mem_empty
  exact isWord_of_isIdentifier (Label.name_of_register hfault hdeclared).2

theorem stream_transcribed {S : List Line} {s : Symbols} (h : stream tree origin text = .ok (S, s)) :
    Transcribed s.macros (· ∈ s.labels) S [] := by
  obtain ⟨p, s₀, hp, hs₀, hs⟩ := stream_eq_ok h
  obtain ⟨hworded, hlegible⟩ := prepare_legible hp
  obtain ⟨hblocks, hprogram⟩ := prepare_faithful hp
  obtain ⟨hworded₀, hlegible₀⟩ :=
    Symbols.Defining.legible (.between (List.append_nil p.blocks).symm hs₀) hworded hlegible hblocks
  exact Symbols.transcribed_expandAll ⟨hlegible₀, hworded₀, List.forall_mem_nil _, hprogram⟩ hs

/-- **The records of every table that a run meets have faithful lines.** -/
theorem Context.legible {owner : Import.Owner} {s : Symbols} (h : Context tree origin text owner s) :
    s.macros.All Macro.Legible := by
  cases h with
  | importing _ hs => exact (hs.all fun _ _ _ => Import.define_legible).1
  | selecting h ht => exact h.defining_legible ht
  | copying h ht =>
    have hinner := h.defining_legible (.between (List.append_nil _).symm ht)
    exact Import.copy_all hinner (h.all fun _ _ _ => Import.define_legible).1.1 _
  | registering h _ => exact (Import.load_all (fun _ _ _ => Import.define_legible) (MacroTable.all_empty _) h).1
  | defining hp ht =>
    obtain ⟨hworded, hlegible⟩ := prepare_legible hp
    exact (ht.legible hworded hlegible (prepare_faithful hp).1).2
  | expanding hp hs₀ _ hs =>
    obtain ⟨hworded, hlegible⟩ := prepare_legible hp
    have h₀ := Symbols.Defining.legible (.between (List.append_nil _).symm hs₀) hworded hlegible
      (prepare_faithful hp).1
    exact h₀.2.of_sameCode (Symbols.expandAll_keeps hs).1 .of_uncounted
  | addressing h _ => exact (stream_transcribed h).macros

/-- **The text of every line says what the line says**: of the lines of every record that a run meets, in the
source itself or in an imported file, and of the lines of the stream; whether they are lines of a file or were
written by expansions. -/
theorem lines_faithful (tree : FileTree) (origin : Origin) (text : String) :
    (∀ owner s, Context tree origin text owner s → ∀ (k : String) (m : Macro), s.macros[k]? = some m →
      ∀ l ∈ m.body, Statement.parse l.text.toList = .ok l.statement) ∧
    ∀ S s, stream tree origin text = .ok (S, s) → ∀ l ∈ S, Statement.parse l.text.toList = .ok l.statement :=
  ⟨fun _ _ h k m hm => (h.legible k m hm).faithful, fun _ _ h => (stream_transcribed h).done⟩

/-- A macro hands its parameter on to an imported one, and refers to a label of the program. -/
def relay : String :=
  "@import hop from lib/hop\n%macro back 1\nhop %0\n%0, 2, start\n%endmacro\nstart:\nback 6\n3, 4\n"

theorem stream_relay : ∃ S s m, stream library {} relay = .ok (S, s) ∧ s.macros["back"]? = some m ∧
    m.body.map Line.text = ["%0, 0, Mhop_over_1", "1, 1", "Mhop_over_1:", "%0, 2, start"] ∧
    S.map Line.text = ["start:", "6, 0, Mback_Mhop_over_1_1", "1, 1", "Mback_Mhop_over_1_1:",
      "6, 2, start", "3, 4"] := by
  have heval : ((stream library {} relay).toOption.map fun r =>
      (r.1.map Line.text, r.2.macros["back"]?.map fun m => m.body.map Line.text)) =
      some (["start:", "6, 0, Mback_Mhop_over_1_1", "1, 1", "Mback_Mhop_over_1_1:", "6, 2, start", "3, 4"],
        some ["%0, 0, Mhop_over_1", "1, 1", "Mhop_over_1:", "%0, 2, start"]) := by
    have hdepth : (library.readable.filter (· ∉ Import.rootChain library {})).length < 2 := by decide +kernel
    rw [stream_eq, prepare_of_load (Import.loadWithin_eq (fun _ _ => .ok ([], {})) hdepth _ _ _).symm]
    decide +kernel
  obtain ⟨r, hstream, htexts⟩ := Option.map_eq_some_iff.1 heval
  obtain ⟨hS, hrecord⟩ := Prod.mk.inj htexts
  obtain ⟨m, hm, hbody⟩ := Option.map_eq_some_iff.1 hrecord
  exact ⟨r.1, r.2, m, toOption_eq_some.1 hstream, hm, hbody, hS⟩

theorem lines_faithful_relay : ∃ S s m, Context library {} relay .root s ∧ s.macros["back"]? = some m ∧
    stream library {} relay = .ok (S, s) ∧
    m.body.map Line.text = ["%0, 0, Mhop_over_1", "1, 1", "Mhop_over_1:", "%0, 2, start"] ∧
    S.map Line.text = ["start:", "6, 0, Mback_Mhop_over_1_1", "1, 1", "Mback_Mhop_over_1_1:",
      "6, 2, start", "3, 4"] ∧
    (∀ l ∈ m.body, Statement.parse l.text.toList = .ok l.statement) ∧
    ∀ l ∈ S, Statement.parse l.text.toList = .ok l.statement := by
  obtain ⟨S, s, m, hstream, hm, hbody, hS⟩ := stream_relay
  obtain ⟨p, s₀, hp, hs₀, hs⟩ := stream_eq_ok hstream
  have hcontext : Context library {} relay .root s := .expanding hp hs₀ (List.append_nil _).symm hs
  exact ⟨S, s, m, hcontext, hm, hstream, hbody, hS, (lines_faithful library {} relay).1 _ s hcontext _ m hm,
    (lines_faithful library {} relay).2 S s hstream⟩

end Assembly

end Abcout
