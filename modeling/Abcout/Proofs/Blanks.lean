import Abcout.Proofs.Extraction

/-!
# Abcout.Proofs.Blanks — sources that say the same up to blank lines

No pass takes a blank line into account, except for the numbers of the lines after it.  `Line.nonblank` leaves
blank lines out, in a file and, by `Block.packed`, in the definitions that are taken out of it.

`Assembly.run_of_load_alike`: two sources that are loaded with the same symbols have one product, if their lines
say the same up to blank lines and only the last line of the first becomes the last of the second.
-/

namespace Abcout

/-- The lines that say something. -/
def Line.nonblank (lines : List Line) : List Line := lines.filter fun l => !l.isBlank

namespace Line

theorem statement_of_isBlank {l : Line} (h : (!l.isBlank) = false) : l.statement = .blank := by
  simpa [isBlank] using h

theorem isBlank_congr {l l' : Line} (h : l.statement = l'.statement) : l'.isBlank = l.isBlank := by
  rw [isBlank, isBlank, h]

theorem nonblank_cons_of_blank {l : Line} (h : l.statement = .blank) (lines : List Line) :
    nonblank (l :: lines) = nonblank lines := by
  simp [nonblank, isBlank, h]

theorem nonblank_cons_of_ne {l : Line} (h : l.statement ≠ .blank) (lines : List Line) :
    nonblank (l :: lines) = l :: nonblank lines := by
  simp [nonblank, isBlank, h]

theorem nonblank_append (xs ys : List Line) : nonblank (xs ++ ys) = nonblank xs ++ nonblank ys :=
  List.filter_append xs ys

theorem filter_isImport_nonblank (lines : List Line) : (nonblank lines).filter isImport =
    lines.filter isImport := by
  rw [nonblank, List.filter_filter]
  refine List.filter_congr fun l _ => ?_
  cases h : l.statement <;> simp [isImport, isBlank, h]

theorem declared_nonblank (lines : List Line) : declared (nonblank lines) = declared lines := by
  induction lines with
  | nil => rfl
  | cons l rest ih =>
    by_cases h : l.statement = .blank
    · rw [nonblank_cons_of_blank h, ih, declared_cons_of_ne rest (by simp [h])]
    · rw [nonblank_cons_of_ne h]
      simp only [declared, List.filterMap_cons] at ih ⊢
      rw [ih]

/-- Lines that are related one by one, and say the same, are so without the blank ones. -/
theorem forall₂_nonblank {R : Line → Line → Prop} (hR : ∀ l l', R l l' → l.statement = l'.statement)
    {xs ys : List Line} (h : List.Forall₂ R xs ys) : List.Forall₂ R (nonblank xs) (nonblank ys) :=
  List.rel_filter (fun l l' hl => by simp [isBlank_congr (hR l l' hl)]) h

end Line

/-! ## Checks -/

theorem Import.check_nonblank (lines : List Line) : check (Line.nonblank lines) = check lines := by
  unfold check
  rw [Line.nonblank, foldlM_filter fun c l hl => by rw [Checked.step, Line.statement_of_isBlank hl]]

namespace Block

theorem check_nonblank (lines : List Line) : check (Line.nonblank lines) = check lines := by
  unfold check
  rw [Line.nonblank, foldlM_filter fun p l hl => by rw [Pairing.step, Line.statement_of_isBlank hl]]

theorem check_alike {lines lines' : List Line} (hlines : List.Forall₂ (fun l l' => l.statement = l'.statement ∧
    ∀ name params, l.statement = .opening name params → l'.text = l.text) lines lines')
    (h : check lines = .ok ()) : check lines' = .ok () := by
  obtain ⟨q, hfold, hunclosed, houter⟩ := check_eq_ok_iff.1 h
  obtain ⟨q', hfold', hq⟩ := foldlM_simulates Pairing.Alike _
    (fun _ _ _ _ _ hp hl hstep => hp.step hl.1 hl.2 hstep) hlines ⟨rfl, rfl, rfl⟩ hfold
  exact check_eq_ok_iff.2 ⟨q', hfold', hq.closed hunclosed houter⟩

/-! ## Definitions -/

/-- A definition without its blank lines. -/
def packed (b : Block) : Block := { b with body := Line.nonblank b.body }

theorem checkCalls_packed (b : Block) : b.packed.checkCalls = b.checkCalls := by
  have hfind : b.packed.body.find? b.packed.callsItself = b.body.find? b.callsItself := by
    show (Line.nonblank b.body).find? b.callsItself = _
    rw [Line.nonblank, List.find?_filter]
    refine congrArg (b.body.find? ·) (funext fun l => ?_)
    cases h : l.statement <;> simp [Line.isBlank, callsItself, h, beq_eq_decide]
  unfold checkCalls
  rw [hfind]
  rfl

end Block

theorem Symbols.define_packed (s : Symbols) (b : Block) : s.define b.packed = s.define b := by
  have hlocals : b.packed.body.foldlM Block.addLocal ∅ = b.body.foldlM Block.addLocal ∅ :=
    foldlM_filter (fun c l hl => by rw [Block.addLocal, Line.statement_of_isBlank hl]) _ _
  have hdraft : ∀ params (d : Block.Draft), b.packed.body.foldlM (Block.Draft.step b.packed params) d =
      b.body.foldlM (Block.Draft.step b params) d := fun params d =>
    foldlM_filter (fun d l hl => by rw [Block.Draft.step, Line.statement_of_isBlank hl]) _ _
  unfold Symbols.define
  rw [Block.checkCalls_packed, hlocals]
  simp only [hdraft]
  rfl

theorem Symbols.defineAll_packed (s : Symbols) (blocks : List Block) :
    (blocks.map Block.packed).foldlM Symbols.define s = blocks.foldlM Symbols.define s := by
  rw [List.foldlM_map]
  exact congrArg (fun f => blocks.foldlM f s) (funext fun s => funext fun b => s.define_packed b)

namespace Symbols

variable {s s' t : Symbols}

/-- **Run**: definitions that are written alike. -/
theorem defineAll_alike {blocks blocks' : List Block} (hs : s.Alike s')
    (hblocks : List.Forall₂ Block.Alike blocks blocks') (h : blocks.foldlM Symbols.define s = .ok t) :
    ∃ t', blocks'.foldlM Symbols.define s' = .ok t' ∧ t.Alike t' := by
  refine foldlM_simulates Symbols.Alike Block.Alike ?_ hblocks hs h
  intro s s' b b' t hs hb hstep
  exact define_alike hs hb hstep

theorem expandAll_nonblank (s : Symbols) (program : List Line) :
    s.expandAll (Line.nonblank program) = s.expandAll program := by
  unfold expandAll
  rw [Line.nonblank, foldlM_filter fun r l hl => by
    simp [expandAfter, expandLine, Line.statement_of_isBlank hl, bind, Except.bind, pure, Except.pure]]

end Symbols

/-! ## Splitting -/

namespace Block

namespace Splitting

variable {s s' : Splitting} {l : Line}

/-- The second splitting has come as far as the first, without the blank lines. -/
structure Packed (s s' : Splitting) : Prop where
  blocks : s'.blocks.toList = s.blocks.toList.map packed
  program : Line.nonblank s'.program.toList = Line.nonblank s.program.toList
  current : s'.current = s.current.map fun c => (c.1, c.2.1, c.2.2.1, (Line.nonblank c.2.2.2.toList).toArray)

theorem Packed.step_blank (h : s.Packed s') (hl : l.statement = .blank) : (s.step l).Packed s' := by
  obtain ⟨blocks, program, current⟩ := s
  obtain ⟨blocks', program', current'⟩ := s'
  obtain ⟨hblocks, hprogram, rfl⟩ := h
  unfold Splitting.step
  rw [hl]
  cases current with
  | none =>
    refine ⟨hblocks, ?_, rfl⟩
    simpa [Line.nonblank, Line.isBlank, hl] using hprogram
  | some c =>
    refine ⟨hblocks, ?_, ?_⟩
    · simpa [Line.nonblank, Line.isBlank, Line.blanked] using hprogram
    · simp [Line.nonblank, Line.isBlank, hl]

theorem Packed.step (h : s.Packed s') (hl : l.statement ≠ .blank) : (s.step l).Packed (s'.step l) := by
  obtain ⟨blocks, program, current⟩ := s
  obtain ⟨blocks', program', current'⟩ := s'
  obtain ⟨hblocks, hprogram, rfl⟩ := h
  simp only at hblocks hprogram
  have hpush : ∀ l', Line.nonblank (program'.push l').toList = Line.nonblank (program.push l').toList := by
    intro l'
    rw [Array.toList_push, Array.toList_push, Line.nonblank_append, Line.nonblank_append, hprogram]
  unfold Splitting.step
  cases current with
  | none =>
    cases hstmt : l.statement with
    | opening name params => exact ⟨hblocks, hpush _, rfl⟩
    | _ => exact ⟨hblocks, hpush _, rfl⟩
  | some c =>
    cases hstmt : l.statement with
    | closing =>
      refine ⟨?_, hpush _, rfl⟩
      simp [hblocks, packed]
    | blank => exact absurd hstmt hl
    | _ =>
      refine ⟨hblocks, hpush _, ?_⟩
      simp [Line.nonblank, Line.isBlank, hstmt]

theorem Packed.foldl (h : s.Packed s') (lines : List Line) :
    (lines.foldl Splitting.step s).Packed ((Line.nonblank lines).foldl Splitting.step s') := by
  induction lines generalizing s s' with
  | nil => exact h
  | cons l rest ih =>
    by_cases hl : l.statement = .blank
    · rw [Line.nonblank_cons_of_blank hl]
      exact ih (h.step_blank hl)
    · rw [Line.nonblank_cons_of_ne hl]
      exact ih (h.step hl)

end Splitting

theorem split_nonblank (lines : List Line) :
    (split (Line.nonblank lines)).1 = (split lines).1.map packed ∧
      Line.nonblank (split (Line.nonblank lines)).2 = Line.nonblank (split lines).2 := by
  have hstart : Splitting.Packed {} {} := ⟨rfl, rfl, rfl⟩
  have h := hstart.foldl lines
  exact ⟨h.blocks, h.program⟩

variable {lines lines' : List Line}

/-- Definitions of lines that say the same. -/
theorem split_alike (h : Line.Alike lines lines') : List.Forall₂ Alike (split lines).1 (split lines').1 := by
  have hfold : ∀ {s s' : Splitting}, s.Alike s' →
      (lines.foldl Splitting.step s).Alike (lines'.foldl Splitting.step s') := by
    induction h with
    | nil => exact id
    | cons hl _ ih => exact fun hs => ih (hs.step hl)
  have hstart : Splitting.Alike {} {} := ⟨.nil, .none⟩
  exact (hfold hstart).blocks

/-- What relates the lines of two files one by one relates those outside of definitions and those in them. -/
theorem extract_forall₂ {R : Line → Line → Prop} (hR : ∀ l l', R l l' → l.statement = l'.statement)
    (hblank : ∀ l l', R l l' → R l.blanked l'.blanked) (inside : Bool) (h : List.Forall₂ R lines lines') :
    List.Forall₂ R (extract inside lines).1 (extract inside lines').1 ∧
      List.Forall₂ R (extract inside lines).2 (extract inside lines').2 := by
  induction h generalizing inside with
  | nil => exact ⟨.nil, .nil⟩
  | @cons l l' rest rest' hl _ ih =>
    have hstmt := hR l l' hl
    have hopening : l'.isOpening = l.isOpening := by rw [Line.isOpening, Line.isOpening, hstmt]
    rcases moved_or_kept inside l with hm | ⟨rfl, hk⟩
    · rw [extract_cons_moved rest hm, extract_cons_moved rest' (hopening ▸ hm), ← hstmt]
      obtain ⟨hkept, hmoved⟩ := ih (l.statement != .closing)
      exact ⟨.cons (hblank l l' hl) hkept, .cons hl hmoved⟩
    · rw [extract_cons_kept rest hk, extract_cons_kept rest' (hopening ▸ hk)]
      obtain ⟨hkept, hmoved⟩ := ih false
      exact ⟨.cons hl hkept, hmoved⟩

end Block

/-! ## Registration -/

namespace Label

theorem lastNumber_congr {xs ys : List Line} (h : xs.map Line.number = ys.map Line.number) :
    lastNumber xs = lastNumber ys := by
  have hfold : ∀ zs : List Line, lastNumber zs = (zs.map Line.number).foldl max 0 :=
    fun zs => (List.foldl_map ..).symm
  rw [hfold, hfold, h]

theorem lastNumber_split (lines : List Line) : lastNumber (Block.split lines).2 = lastNumber lines := by
  rw [Block.split_program]
  exact lastNumber_congr (Block.numbers_extract false lines)

theorem foldl_step_nonblank (last : Nat) (isMacro : String → Bool) (lines : List Line) (r : Registration) :
    (Line.nonblank lines).foldl (Registration.step last isMacro) r =
      lines.foldl (Registration.step last isMacro) r := by
  induction lines generalizing r with
  | nil => rfl
  | cons l rest ih =>
    by_cases hl : l.statement = .blank
    · have hstep : r.step last isMacro l = r := by
        unfold Registration.step
        rw [hl]
        cases r.fault <;> rfl
      rw [Line.nonblank_cons_of_blank hl, List.foldl_cons, hstep, ih]
    · rw [Line.nonblank_cons_of_ne hl, List.foldl_cons, List.foldl_cons, ih]

end Label

/-! ## Runs -/

theorem MacroTable.Alike.refl (t : MacroTable) : t.Alike t := by
  intro k
  cases t[k]? with
  | none => exact .none
  | some m => exact .some ⟨Line.alike_iff.2 rfl, rfl⟩

namespace Assembly

/-- Sources that have been prepared with the same labels, and say the same up to blank lines. -/
structure Prepared.Alike (p p' : Prepared) : Prop where
  symbols : p.symbols.Alike p'.symbols
  blocks : List.Forall₂ Block.Alike (p.blocks.map Block.packed) (p'.blocks.map Block.packed)
  program : Line.Alike (Line.nonblank p.program) (Line.nonblank p'.program)

theorem Prepared.Alike.expand {p p' : Prepared} {S : List Line} {s : Symbols} (h : p.Alike p')
    (hexpand : p.expand = .ok (S, s)) : ∃ S' s', p'.expand = .ok (S', s') ∧ Line.Alike S S' := by
  unfold Prepared.expand at hexpand ⊢
  obtain ⟨s₀, hs₀, hexpand⟩ := bind_eq_ok.1 hexpand
  rw [← Symbols.defineAll_packed] at hs₀
  rw [← Symbols.expandAll_nonblank] at hexpand
  obtain ⟨s₀', hs₀', hsymbols⟩ := Symbols.defineAll_alike h.symbols h.blocks hs₀
  obtain ⟨S', s', hexpand', halike, -⟩ := Symbols.expandAll_alike hsymbols h.program hexpand
  rw [Symbols.defineAll_packed] at hs₀'
  rw [Symbols.expandAll_nonblank] at hexpand'
  exact ⟨S', s', bind_eq_ok.2 ⟨s₀', hs₀', hexpand'⟩, halike⟩

variable {tree : FileTree} {origin : Origin} {text text' : String} {lines lines' : List Line} {s : Symbols}
  {product : Product}

/-- Two lines, one of each of two files, that say the same.  Only the last line of the first file becomes the last
of the second. -/
def Follows (lines lines' : List Line) (l l' : Line) : Prop :=
  l.statement = l'.statement ∧ (l'.number = Label.lastNumber lines' → l.number = Label.lastNumber lines)

theorem prepare_alike {p : Prepared} (hp : (prepare tree origin text).2 = .ok p)
    (hload : Import.load tree (Import.rootChain tree origin) {} origin text = .ok (lines, s))
    (hload' : Import.load tree (Import.rootChain tree origin) {} origin text' = .ok (lines', s))
    (hlines : List.Forall₂ (Follows lines lines') (Line.nonblank lines) (Line.nonblank lines')) :
    ∃ p', (prepare tree origin text').2 = .ok p' ∧ p.Alike p' := by
  obtain ⟨_, _, hload₀, hregister, rfl⟩ := prepare_eq_ok hp
  cases hload₀.symm.trans hload
  have hlabels : s.labels = ∅ := (Import.load_wellFormed (MacroTable.all_empty _) hload).2
  have hprogram : List.Forall₂ (Follows lines lines') (Line.nonblank (Block.split lines).2)
      (Line.nonblank (Block.split lines').2) := by
    rw [← (Block.split_nonblank lines).2, ← (Block.split_nonblank lines').2]
    refine Line.forall₂_nonblank (fun _ _ h => h.1) ?_
    rw [Block.split_program, Block.split_program]
    exact (Block.extract_forall₂ (fun _ _ h => h.1) (fun _ _ h => ⟨rfl, h.2⟩) false hlines).1
  have halike : Line.Alike (Line.nonblank (Block.split lines).2) (Line.nonblank (Block.split lines').2) :=
    hprogram.imp fun _ _ h => h.1
  have hblocks : List.Forall₂ Block.Alike ((Block.split lines).1.map Block.packed)
      ((Block.split lines').1.map Block.packed) := by
    rw [← (Block.split_nonblank lines).1, ← (Block.split_nonblank lines').1]
    exact Block.split_alike (hlines.imp fun _ _ h => h.1)
  have hregister' : (Label.register s (Block.split lines').2 (Block.split lines').1).fault = none := by
    unfold Label.register at hregister ⊢
    rw [Label.lastNumber_split, ← Label.foldl_step_nonblank] at hregister ⊢
    exact Label.foldl_step_alike hprogram rfl rfl hregister
  have hdeclared : Line.declared (Block.split lines').2 = Line.declared (Block.split lines).2 := by
    rw [← Line.declared_nonblank, ← Line.declared_nonblank (Block.split lines).2]
    exact halike.declared
  refine ⟨⟨{ s with labels := (Label.register s (Block.split lines').2 (Block.split lines').1).labels },
    (Block.split lines').1, (Block.split lines').2⟩, ?_, ⟨?_, .refl _⟩, hblocks, halike⟩
  · rw [prepare_of_load hload']
    simp only [hregister']
  · show (Label.register s _ _).labels = (Label.register s _ _).labels
    rw [(Label.register_eq hlabels hregister).2, (Label.register_eq hlabels hregister').2, hdeclared]

/-- **One product for sources that say the same.** -/
theorem run_of_load_alike (hrun : (run tree origin text).outcome = .ok product)
    (hload : Import.load tree (Import.rootChain tree origin) {} origin text = .ok (lines, s))
    (hload' : Import.load tree (Import.rootChain tree origin) {} origin text' = .ok (lines', s))
    (hlines : List.Forall₂ (Follows lines lines') (Line.nonblank lines) (Line.nonblank lines')) :
    (run tree origin text').outcome = .ok product := by
  obtain ⟨S, sₙ, hstream, hlay⟩ := run_eq_ok hrun
  obtain ⟨p, hp, hexpand⟩ := bind_eq_ok.1 hstream
  obtain ⟨p', hp', halike⟩ := prepare_alike hp hload hload' hlines
  obtain ⟨S', sₙ', hexpand', hSS'⟩ := halike.expand hexpand
  have hstream' : stream tree origin text' = .ok (S', sₙ') := bind_eq_ok.2 ⟨p', hp', hexpand'⟩
  rw [outcome_run]
  exact bind_eq_ok.2 ⟨(S', sₙ'), hstream', layOut_alike (stream_expanding hstream)
    (stream_expanding hstream') hSS' hlay⟩

end Assembly

end Abcout
