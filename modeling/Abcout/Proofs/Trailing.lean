import Abcout.Proofs.Assembly

/-!
# Abcout.Proofs.Trailing — labels with no instruction behind them

A label stands for the instruction that follows it.  A label on the last line of a program is refused, but lines
that emit nothing may stand behind a label: comments, empty macros, other labels.  Such a label is accepted, and
its address is that behind the last instruction, where the sentinel is.

* `Line.emits macros l`: the line stands for an instruction at least.
* `LabelTable.Places labels n name followed`: the address of `name` is that of one of `n` instructions if
  `followed`, and that behind all of them otherwise.
* `run_places_labels`: for the labels of the program and of every expansion, `followed` is that a line which emits
  comes later; and all labels are followed iff the stream does not end with one.
-/

namespace Abcout

/-! ## Lines that emit -/

/-- Whether the line is an instruction, or calls a macro whose body has one. -/
def Line.emits (macros : MacroTable) (l : Line) : Bool :=
  match l.statement with
  | .instruction _ => true
  | .call name _ => macros[name]?.any fun m => !(Line.instructions m.body).isEmpty
  | _ => false

/-- What a line emits does not depend on the counters of the macros. -/
theorem Line.emits_of_sameCode {t t' : MacroTable} (h : t.SameCode t') (l : Line) : l.emits t' = l.emits t := by
  have hany : ∀ (t : MacroTable) (name : String), (t[name]?.any fun m => !(Line.instructions m.body).isEmpty) =
      ((t[name]?.map Macro.uncounted).any fun m => !(Line.instructions m.body).isEmpty) := by
    intro t name
    cases t[name]? <;> rfl
  unfold emits
  split
  · rfl
  · rw [hany, hany, h]
  · rfl

theorem Line.IsCode.emits_iff {l : Line} (h : l.IsCode) (macros : MacroTable) :
    l.emits macros ↔ ∃ ops, l.statement = .instruction ops := by
  unfold Line.emits
  rcases h with ⟨name, hl⟩ | ⟨ops, hl⟩
  · simp [hl]
  · simp [hl]

theorem Line.instructions_ne_nil {lines : List Line} :
    instructions lines ≠ [] ↔ ∃ l ∈ lines, ∃ ops, l.statement = .instruction ops := by
  constructor
  · intro h
    obtain ⟨ops, hops⟩ := List.exists_mem_of_ne_nil _ h
    obtain ⟨l, hl, hstmt⟩ := exists_of_mem_instructions hops
    exact ⟨l, hl, ops, hstmt⟩
  · rintro ⟨l, hl, ops, hstmt⟩
    exact List.ne_nil_of_mem (mem_instructions hl hstmt)

theorem Line.instructions_ne_nil_of_isCode {lines : List Line} (h : ∀ l ∈ lines, l.IsCode) (macros : MacroTable) :
    instructions lines ≠ [] ↔ ∃ l ∈ lines, l.emits macros := by
  rw [instructions_ne_nil]
  exact exists_congr fun l => and_congr_right fun hl => ((h l hl).emits_iff macros).symm

/-- All labels among lines have an instruction behind them iff the last line is one. -/
theorem Line.labels_followed_iff {lines : List Line} (hcode : ∀ l ∈ lines, l.IsCode) :
    (∀ before line after name, lines = before ++ line :: after → line.statement = .label name →
      instructions after ≠ []) ↔ ∀ l ∈ lines.getLast?, ∃ ops, l.statement = .instruction ops := by
  constructor
  · intro hall l hl
    obtain ⟨init, rfl⟩ := List.getLast?_eq_some_iff.1 hl
    rcases hcode l (by simp) with ⟨name, hname⟩ | hinstr
    · exact absurd rfl (hall init l [] name rfl hname)
    · exact hinstr
  · rintro hlast before line after name rfl hl
    rcases List.eq_nil_or_concat' after with rfl | ⟨init, last, rfl⟩
    · obtain ⟨ops, hops⟩ := hlast line (by simp)
      rw [hl] at hops
      cases hops
    · rw [← List.cons_append, ← List.append_assoc, List.getLast?_concat] at hlast
      obtain ⟨ops, hops⟩ := hlast last rfl
      exact List.ne_nil_of_mem (mem_instructions (by simp) hops)

namespace Symbols

/-- **Step**: a line that emits is one with instructions in its expansion. -/
theorem instructions_expandLine {s s' : Symbols} {line : Line} {lines : List Line}
    (h : s.expandLine line = .ok (lines, s')) : Line.instructions lines ≠ [] ↔ line.emits s.macros := by
  unfold Line.emits
  rcases expandLine_eq_ok h with ⟨hl, rfl, rfl⟩ | ⟨⟨name, hl⟩, rfl, rfl⟩ | ⟨ops, hl, -, rfl, rfl⟩ |
    ⟨name, args, hl, he⟩
  · rcases hl with hl | hl <;> simp [hl]
  · simp [hl, Line.instructions_cons_label [] hl]
  · simp [hl, Line.instructions_cons_instruction [] hl]
  · obtain ⟨m, hm, rfl, -, -⟩ := expand_eq_ok_iff.1 he
    simp [hl, hm, instructions_instantiate]

/-- **Run**: so is it for the lines of a program. -/
theorem instructions_expandAll {s s' : Symbols} {program lines : List Line}
    (h : s.expandAll program = .ok (lines, s')) :
    Line.instructions lines ≠ [] ↔ ∃ l ∈ program, l.emits s.macros := by
  induction program generalizing s lines with
  | nil =>
    cases h
    simp
  | cons line rest ih =>
    obtain ⟨now, s₁, later, hnow, hlater, rfl⟩ := expandAll_cons_eq_ok.1 h
    have hrest := ih hlater
    simp only [Line.emits_of_sameCode (expandLine_keeps hnow).1] at hrest
    rw [Line.instructions_append, ne_eq, List.append_eq_nil_iff, not_and_or, List.exists_mem_cons_iff, ← hrest,
      ← instructions_expandLine hnow]

theorem expandLine_label {s s' : Symbols} {line : Line} {name : String} {lines : List Line}
    (hl : line.statement = .label name) (h : s.expandLine line = .ok (lines, s')) : lines = [line] := by
  unfold expandLine at h
  rw [hl] at h
  cases h
  rfl

/-- A line of a program, between what the lines before and after it stand for. -/
theorem expandAll_split {s s' : Symbols} {before after S : List Line} {line : Line}
    (h : s.expandAll (before ++ line :: after) = .ok (S, s')) :
    ∃ done s₁ lines s₂ later, s.expandAll before = .ok (done, s₁) ∧ s₁.expandLine line = .ok (lines, s₂) ∧
      S = done ++ lines ++ later ∧ (Line.instructions later ≠ [] ↔ ∃ l ∈ after, l.emits s.macros) := by
  obtain ⟨done, s₁, rest, hdone, hrest, rfl⟩ := expandAll_append_eq_ok.1 h
  obtain ⟨lines, s₂, later, hline, hlater, rfl⟩ := expandAll_cons_eq_ok.1 hrest
  have hcode : s.macros.SameCode s₂.macros := (expandAll_keeps hdone).1.trans (expandLine_keeps hline).1
  have hiff := instructions_expandAll hlater
  simp only [Line.emits_of_sameCode hcode] at hiff
  exact ⟨done, s₁, lines, s₂, later, hdone, hline, (List.append_assoc _ _ _).symm, hiff⟩

end Symbols

/-- A label of a body, between what the lines before and after it are instantiated to. -/
theorem Macro.instantiate_split {m : Macro} {inner rest : List Line} {label : Line} {x : String}
    (hbody : m.body = inner ++ label :: rest) (hx : label.statement = .label x) (args : List Operand)
    (r : Renaming) (site : Line) :
    ∃ before line after, m.instantiate args r site = before ++ line :: after ∧
      line.statement = .label (r.apply x) ∧
      (Line.instructions after ≠ [] ↔ Line.instructions rest ≠ []) := by
  refine ⟨instantiate { m with body := inner } args r site, site.expanded (label.statement.substitute args r),
    instantiate { m with body := rest } args r site, ?_, ?_, ?_⟩
  · rw [instantiate, hbody, List.map_append, List.map_cons]
    rfl
  · rw [hx]
    rfl
  · rw [instructions_instantiate, ne_eq, List.map_eq_nil_iff]

/-! ## Addresses -/

/-- A label of a program with `n` instructions has the address of an instruction if `followed` holds, and the
address behind the last one if not. -/
def LabelTable.Places (labels : LabelTable) (n : Nat) (name : String) (followed : Prop) : Prop :=
  ∃ (address : UInt16) (k : Nat), labels[name]? = some (some address) ∧ address.toNat = 6 * k ∧ k ≤ n ∧
    (k < n ↔ followed)

theorem LabelTable.Places.congr {labels : LabelTable} {n : Nat} {name : String} {followed followed' : Prop}
    (h : labels.Places n name followed) (hiff : followed ↔ followed') : labels.Places n name followed' := by
  obtain ⟨address, k, hget, haddress, hle, hlt⟩ := h
  exact ⟨address, k, hget, haddress, hle, hlt.trans hiff⟩

theorem LabelTable.Places.mem {labels : LabelTable} {n : Nat} {name : String} {followed : Prop}
    (h : labels.Places n name followed) : name ∈ labels := by
  obtain ⟨address, -, hget, -⟩ := h
  rw [Std.ExtTreeMap.mem_iff_isSome_getElem?, hget]
  rfl

/-- Whether a label is followed can be told from its address. -/
theorem LabelTable.Places.unique {labels : LabelTable} {n : Nat} {name : String} {followed followed' : Prop}
    (h : labels.Places n name followed) (h' : labels.Places n name followed') : followed ↔ followed' := by
  obtain ⟨address, k, hget, haddress, -, hlt⟩ := h
  obtain ⟨address', k', hget', haddress', -, hlt'⟩ := h'
  rw [hget] at hget'
  cases hget'
  obtain rfl : k = k' := by omega
  exact hlt.symm.trans hlt'

/-- A label that is declared once stands at the instructions before it. -/
theorem Line.position?_of_split {before after : List Line} {line : Line} {name : String}
    (hnd : (declared (before ++ line :: after)).Nodup) (hl : line.statement = .label name) :
    position? name (before ++ line :: after) = some (instructions before).length := by
  rw [declared_append, declared_cons_label after hl] at hnd
  have hnew : name ∉ declared before := fun hmem =>
    List.disjoint_of_nodup_append hnd hmem List.mem_cons_self
  have hhere : position? name (line :: after) = some 0 := by
    rw [position?, hl]
    exact if_pos rfl
  rw [position?_append_right hnew, hhere]
  rfl

namespace Assembly

/-- The labels of a stream, and what stands behind them there. -/
theorem layOut_places {S : List Line} {s : Symbols} {product : Product} (hS : Symbols.Expanding S s [])
    (h : layOut s.labels S = .ok product) :
    ∃ labels code, Label.assign s.labels S = .ok (labels, code) ∧ Emission.emit labels code = .ok product ∧
      (∀ name ∈ labels, name ∈ Line.declared S) ∧
      ∀ before line after name, S = before ++ line :: after → line.statement = .label name →
        labels.Places product.program.length name (Line.instructions after ≠ []) := by
  obtain ⟨-, -, hlen, -⟩ := layOut_spec hS h
  obtain ⟨⟨labels, code⟩, hassign, hemit⟩ := bind_eq_ok.1 h
  have hnd : (Line.declared S).Nodup := by simpa using hS.nodup
  obtain ⟨-, hlabels⟩ := Label.assign_spec hS.isCode hnd hassign
  refine ⟨labels, code, hassign, hemit, fun name hname => ?_, ?_⟩
  · by_contra hnot
    have hget := hlabels.of_none (Line.position?_eq_none_iff.2 hnot)
    have hmem : name ∈ s.labels := by
      rw [Std.ExtTreeMap.mem_iff_isSome_getElem?] at hname ⊢
      rw [← hget]
      exact hname
    exact hnot (by simpa using hS.mem_labels.1 hmem)
  · rintro before line after name rfl hl
    obtain ⟨hlt, hget⟩ := hlabels.of_position (Line.position?_of_split hnd hl)
    rw [Nat.zero_add] at hlt hget
    refine ⟨_, _, hget, UInt16.toNat_ofNat_of_lt' hlt, ?_, ?_⟩
    all_goals rw [hlen, Line.instructions_append, Line.instructions_cons_label after hl, List.length_append]
    · exact Nat.le_add_right _ _
    · rw [← List.length_pos_iff]
      omega

variable {tree : FileTree} {origin : Origin} {text : String} {product : Product}

/-- **A label has the address of an instruction iff a line that emits follows it.**  For a label of the program
this is one of the lines after it; for a label of an expansion one of the lines after it in the body, or after the
call.  No label is above the end of the code, and all are below it iff the stream does not end with a label. -/
theorem run_places_labels (h : (run tree origin text).outcome = .ok product) :
    ∃ p s₀ S s labels code, (prepare tree origin text).2 = .ok p ∧
      p.blocks.foldlM Symbols.define p.symbols = .ok s₀ ∧ s₀.expandAll p.program = .ok (S, s) ∧
      Label.assign s.labels S = .ok (labels, code) ∧ Emission.emit labels code = .ok product ∧
      (∀ before line after name, p.program = before ++ line :: after → line.statement = .label name →
        labels.Places product.program.length name (∃ l ∈ after, l.emits s₀.macros)) ∧
      (∀ before line after name args, p.program = before ++ line :: after → line.statement = .call name args →
        ∃ done s₁ m, s₀.expandAll before = .ok (done, s₁) ∧ s₁.macros[name]? = some m ∧
          ∀ inner label rest x, m.body = inner ++ label :: rest → label.statement = .label x →
            labels.Places product.program.length ((Scope.program.freshNames s₁.labels name m).apply x)
              (∃ l ∈ rest ++ after, l.emits s₀.macros)) ∧
      ((∀ name ∈ labels, labels.Places product.program.length name True) ↔
        ∀ l ∈ S.getLast?, ∃ ops, l.statement = .instruction ops) := by
  obtain ⟨S, s, hstream, hlay⟩ := run_eq_ok h
  obtain ⟨p, s₀, hp, hs₀, hexp⟩ := stream_eq_ok hstream
  have hS := stream_expanding hstream
  obtain ⟨labels, code, hassign, hemit, hdeclared, hplaces⟩ := layOut_places hS hlay
  refine ⟨p, s₀, S, s, labels, code, hp, hs₀, hexp, hassign, hemit, ?_, ?_, ?_⟩
  · intro before line after name hprog hl
    rw [hprog] at hexp
    obtain ⟨done, s₁, lines, s₂, later, -, hline, rfl, hlater⟩ := Symbols.expandAll_split hexp
    obtain rfl : lines = [line] := Symbols.expandLine_label hl hline
    exact (hplaces done line later name (by simp) hl).congr hlater
  · intro before line after name args hprog hl
    have h0 := prepare_expanding hp hs₀
    rw [hprog] at h0 hexp
    obtain ⟨done, s₁, lines, s₂, later, hdone, hline, rfl, hlater⟩ := Symbols.expandAll_split hexp
    obtain ⟨m, hm, rfl⟩ := Symbols.expandLine_call hl hline
    refine ⟨done, s₁, m, hdone, hm, fun inner label rest x hbody hx => ?_⟩
    have hcode := ((h0.expandAll hdone).macros name m hm).isCode
    rw [hbody, List.forall_mem_append, List.forall_mem_cons] at hcode
    obtain ⟨above, line', below, hsplit, hl', hbelow⟩ := Macro.instantiate_split hbody hx args
      (Scope.program.freshNames s₁.labels name m) line
    refine (hplaces (done ++ above) line' (below ++ later) _ (by simp [hsplit]) hl').congr ?_
    rw [Line.instructions_append, ne_eq, List.append_eq_nil_iff, not_and_or, ← ne_eq, hbelow,
      Line.instructions_ne_nil_of_isCode hcode.2.2 s₀.macros, ← ne_eq, hlater]
    simp only [List.mem_append, or_and_right, exists_or]
  · rw [← Line.labels_followed_iff hS.isCode]
    constructor
    · intro hall before line after name hsplit hl
      have hplace := hplaces before line after name hsplit hl
      exact (hplace.unique (hall name hplace.mem)).2 trivial
    · intro hfollowed name hname
      obtain ⟨line, hmem, hl⟩ := List.mem_map.1 (Line.mem_declared_iff.1 (hdeclared name hname))
      obtain ⟨before, after, hsplit⟩ := List.append_of_mem hmem
      exact (hplaces before line after name hsplit hl).congr (iff_true_intro
        (hfollowed before line after name hsplit hl))

/-! ## Sources that end with labels -/

/-- A local label and a label of the program, both behind the only instruction. -/
def trailing : String := "%macro skip 0\n0, 0, over\nover:\n%endmacro\nstart:\nskip\nend:\n; done\n"

theorem run_trailing :
    ∃ product p s₀ S s, (run {} {} trailing).outcome = .ok product ∧ (prepare {} {} trailing).2 = .ok p ∧
      p.blocks.foldlM Symbols.define p.symbols = .ok s₀ ∧ s₀.expandAll p.program = .ok (S, s) ∧
      product.program = [⟨0, 0, 6⟩] ∧
      (p.program.drop 4).map Line.statement = [.label "start", .call "skip" [], .label "end", .blank] ∧
      (∃ l ∈ p.program.drop 5, l.emits s₀.macros) ∧ ¬ (∃ l ∈ p.program.drop 6, l.emits s₀.macros) ∧
      (s₀.expandAll (p.program.take 5)).toOption.all fun r => r.2.macros["skip"]?.all fun m =>
        m.body[1]?.map Line.statement = some (.label "over") && (m.body.drop 2).isEmpty &&
          (Scope.program.freshNames r.2.labels "skip" m).apply "over" == "Mskip_over_1" := by
  refine exists_passes ?_
  rw [prepare_of_load (Import.load_eq _ _ _ _ _)]
  decide +kernel

theorem run_places_labels_trailing :
    ∃ product s S labels code, (run {} {} trailing).outcome = .ok product ∧ product.program = [⟨0, 0, 6⟩] ∧
      stream {} {} trailing = .ok (S, s) ∧ Label.assign s.labels S = .ok (labels, code) ∧
      labels.Places 1 "start" True ∧ labels.Places 1 "Mskip_over_1" False ∧ labels.Places 1 "end" False := by
  obtain ⟨product, p, s₀, S, s, hrun, hp, hs₀, hexp, hprogram, hlines, hfirst, hlast, hover⟩ := run_trailing
  obtain ⟨p', s₀', S', s', labels, code, hp', hs₀', hexp', hassign, -, hlabels, hcalls, -⟩ :=
    run_places_labels hrun
  cases hp.symm.trans hp'
  cases hs₀.symm.trans hs₀'
  cases hexp.symm.trans hexp'
  rw [hprogram] at hlabels hcalls
  have hline : ∀ n, p.program[4 + n]?.map Line.statement =
      [.label "start", .call "skip" [], .label "end", Statement.blank][n]? := by
    intro n
    rw [← hlines, List.getElem?_map, List.getElem?_drop]
  refine ⟨product, s, S, labels, code, hrun, hprogram, stream_of_passes hp hs₀ hexp, hassign, ?_, ?_, ?_⟩
  · obtain ⟨line, hsplit, hl⟩ := Line.exists_split (hline 0)
    exact (hlabels _ line _ "start" hsplit hl).congr (iff_true_intro hfirst)
  · obtain ⟨line, hsplit, hl⟩ := Line.exists_split (hline 1)
    obtain ⟨done, s₁, m, hdone, hm, hlocals⟩ := hcalls _ line _ "skip" [] hsplit hl
    simp only [hdone, Except.toOption, Option.all_some, hm, Bool.and_eq_true, decide_eq_true_eq, List.isEmpty_iff,
      beq_iff_eq] at hover
    obtain ⟨⟨hlabel, hrest⟩, hname⟩ := hover
    obtain ⟨label, hbody, hx⟩ := Line.exists_split hlabel
    have hplace := hlocals _ label _ "over" hbody hx
    rw [hname, hrest, List.nil_append] at hplace
    exact hplace.congr (iff_false_intro hlast)
  · obtain ⟨line, hsplit, hl⟩ := Line.exists_split (hline 2)
    refine (hlabels _ line _ "end" hsplit hl).congr (iff_false_intro fun hex => hlast ?_)
    obtain ⟨l, hl, he⟩ := hex
    exact ⟨l, List.mem_of_mem_drop (i := 1) (by rwa [List.drop_drop]), he⟩

/-- A label with a comment behind it, and nothing else. -/
def dangling : String := "0, 0, end\nend:\n; done\n"

/-- **A comment behind a label lets it stand at the sentinel**: the source is assembled to one instruction, and the
address of its label is six. -/
theorem label_stands_at_sentinel :
    ∃ product p S s labels code, (run {} {} dangling).outcome = .ok product ∧ (prepare {} {} dangling).2 = .ok p ∧
      "end" ∈ Line.declared p.program ∧ stream {} {} dangling = .ok (S, s) ∧
      Label.assign s.labels S = .ok (labels, code) ∧ labels["end"]? = some (some 6) ∧
      product.program = [⟨0, 0, 6⟩] := by
  have heval : ∃ product p s₀ S s, (run {} {} dangling).outcome = .ok product ∧
      (prepare {} {} dangling).2 = .ok p ∧ p.blocks.foldlM Symbols.define p.symbols = .ok s₀ ∧
      s₀.expandAll p.program = .ok (S, s) ∧ "end" ∈ Line.declared p.program ∧ product.program = [⟨0, 0, 6⟩] ∧
      S[1]?.map Line.statement = some (.label "end") ∧ S.drop 2 = [] := by
    refine exists_passes ?_
    rw [prepare_of_load (Import.load_eq _ _ _ _ _)]
    decide +kernel
  obtain ⟨product, p, s₀, S, s, hrun, hp, hs₀, hexp, hend, hprogram, hlabel, hlast⟩ := heval
  have hstream : stream {} {} dangling = .ok (S, s) := stream_of_passes hp hs₀ hexp
  have hlay : layOut s.labels S = .ok product := by rw [← run_outcome_of_stream hstream, hrun]
  obtain ⟨labels, code, hassign, -, -, hplaces⟩ := layOut_places (stream_expanding hstream) hlay
  obtain ⟨line, hsplit, hl⟩ := Line.exists_split hlabel
  obtain ⟨address, k, hget, haddress, hle, hlt⟩ := hplaces _ line _ "end" hsplit hl
  rw [hprogram, List.length_singleton] at hle hlt
  -- nothing follows, so that the address is the end of the code
  have hk : k = 1 := by
    have hnot : ¬ k < 1 := fun hk => hlt.1 hk (by rw [hlast, Line.instructions_nil])
    omega
  obtain rfl : address = 6 := UInt16.toNat_inj.1 (by rw [haddress, hk]; rfl)
  exact ⟨product, p, S, s, labels, code, hrun, hp, hend, hstream, hassign, hget, hprogram⟩

end Assembly

end Abcout
