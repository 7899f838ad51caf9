import Abcout.Proofs.ImportOrder

/-!
# Abcout.Proofs.Pieces — a file is program lines and definitions, one after the other

Three passes look at the first and last lines of definitions.  `Block.check` keeps a stack of open definitions,
`Block.split` has room for one, and `Import.check` only knows whether one is open.  They agree on every file that
the first one accepts, since such a file consists of pieces (`Block.Piece`), each a line of the program or a whole
definition.

* `Block.check_iff_paired`: what `Block.check` accepts.
* `Block.exists_pieces`: the pieces of what it accepts, and `Block.split_pieces`: what `Block.split` does with
  them.
* `Block.check_split_agree` puts this together.  What the later passes refuse in such a file is never its
  structure.
-/

namespace Abcout

/-! ## First and last lines of definitions -/

namespace Line

/-- The marks among lines, in order: `true` for the first line of a definition, `false` for the last. -/
def marks (lines : List Line) : List Bool :=
  lines.filterMap fun l => match l.statement with
    | .opening _ _ => some true
    | .closing => some false
    | _ => none

theorem opening_or_closing_or_directive_or_plain (l : Line) :
    (∃ name params, l.statement = .opening name params) ∨ l.statement = .closing ∨ l.statement = .directive ∨
      l.Plain := by
  cases h : l.statement with
  | opening name params => exact .inl ⟨name, params, rfl⟩
  | closing => exact .inr (.inl rfl)
  | directive => exact .inr (.inr (.inl rfl))
  | _ => exact .inr (.inr (.inr ⟨by simp [h], by simp [h], by simp [h]⟩))

section Cons

variable {l : Line} (rest : List Line)

theorem marks_cons_opening {name : String} {params : Option Nat} (h : l.statement = .opening name params) :
    marks (l :: rest) = true :: marks rest := by
  simp [marks, h]

theorem marks_cons_closing (h : l.statement = .closing) : marks (l :: rest) = false :: marks rest := by
  simp [marks, h]

theorem marks_cons_plain (h : l.Plain) : marks (l :: rest) = marks rest := by
  obtain ⟨hopening, hclosing, -⟩ := h
  unfold marks
  rw [List.filterMap_cons_none]
  split
  · exact absurd ‹_› (hopening _ _)
  · exact absurd ‹_› hclosing
  · rfl

end Cons

theorem Plain.isOpening {l : Line} (h : l.Plain) : l.isOpening = false := by
  rw [← Bool.not_eq_true, isOpening_iff]
  rintro ⟨name, params, hl⟩
  exact h.not_opening name params hl

theorem plain_blanked (l : Line) : l.blanked.Plain := ⟨nofun, nofun, nofun⟩

end Line

/-- Marks that begin and end definitions in turn, the last one with an end.  `inside` says whether a definition is
open at the start. -/
def InTurn (inside : Bool) (marks : List Bool) : Prop :=
  ∃ n, marks = (if inside then [false] else []) ++ (List.replicate n [true, false]).flatten

theorem inTurn_nil {inside : Bool} : InTurn inside [] ↔ inside = false := by
  cases inside with
  | false => exact iff_of_true ⟨0, rfl⟩ rfl
  | true => exact iff_of_false (by rintro ⟨n, h⟩; cases h) nofun

theorem inTurn_cons {inside mark : Bool} {marks : List Bool} :
    InTurn inside (mark :: marks) ↔ mark = !inside ∧ InTurn (!inside) marks := by
  cases inside with
  | true =>
    constructor
    · rintro ⟨n, h⟩
      obtain ⟨rfl, hmarks⟩ := List.cons.inj h
      exact ⟨rfl, n, hmarks⟩
    · rintro ⟨rfl, n, rfl⟩
      exact ⟨n, rfl⟩
  | false =>
    constructor
    · rintro ⟨n, h⟩
      cases n with
      | zero => cases h
      | succ n =>
        obtain ⟨rfl, hmarks⟩ := List.cons.inj h
        exact ⟨rfl, n, hmarks⟩
    · rintro ⟨rfl, n, rfl⟩
      exact ⟨n + 1, rfl⟩

namespace Block

/-! ## Pairing -/

/-- Lines without other percent signs, whose marks alternate, and whose first lines of definitions are new and all
different. -/
structure Paired (inside : Bool) (seen : NameSet) (lines : List Line) : Prop where
  not_directive : ∀ l ∈ lines, l.statement ≠ .directive
  inTurn : InTurn inside (Line.marks lines)
  nodup : ((lines.filter Line.isOpening).map Line.text).Nodup
  fresh : ∀ l ∈ lines.filter Line.isOpening, l.text ∉ seen

section Cons

variable {inside : Bool} {seen : NameSet} {l : Line} {rest : List Line}

theorem paired_cons_opening {name : String} {params : Option Nat} (hl : l.statement = .opening name params) :
    Paired inside seen (l :: rest) ↔ inside = false ∧ l.text ∉ seen ∧ Paired true (seen.insert l.text) rest := by
  have hfilter : (l :: rest).filter Line.isOpening = l :: rest.filter Line.isOpening :=
    List.filter_cons_of_pos (Line.isOpening_iff.2 ⟨name, params, hl⟩)
  have hmarks : InTurn inside (Line.marks (l :: rest)) ↔ inside = false ∧ InTurn true (Line.marks rest) := by
    rw [Line.marks_cons_opening rest hl, inTurn_cons]
    cases inside <;> simp
  constructor
  · rintro ⟨hdirective, hturn, hnodup, hfresh⟩
    obtain ⟨hinside, hturn⟩ := hmarks.1 hturn
    rw [hfilter] at hnodup hfresh
    obtain ⟨hfirst, hnodup⟩ := List.nodup_cons.1 hnodup
    obtain ⟨hnew, hfresh⟩ := List.forall_mem_cons.1 hfresh
    refine ⟨hinside, hnew, (List.forall_mem_cons.1 hdirective).2, hturn, hnodup, fun l' hl' hmem => ?_⟩
    rcases NameSet.mem_insert_name.1 hmem with htext | hmem
    · exact hfirst (List.mem_map.2 ⟨l', hl', htext.symm⟩)
    · exact hfresh l' hl' hmem
  · rintro ⟨hinside, hnew, hdirective, hturn, hnodup, hfresh⟩
    refine ⟨List.forall_mem_cons.2 ⟨by simp [hl], hdirective⟩, hmarks.2 ⟨hinside, hturn⟩, ?_, ?_⟩
    · rw [hfilter, List.map_cons, List.nodup_cons]
      refine ⟨fun hmem => ?_, hnodup⟩
      obtain ⟨l', hl', htext⟩ := List.mem_map.1 hmem
      exact hfresh l' hl' (NameSet.mem_insert_name.2 (.inl htext.symm))
    · rw [hfilter]
      exact List.forall_mem_cons.2 ⟨hnew, fun l' hl' hmem => hfresh l' hl' (NameSet.mem_insert_name.2 (.inr hmem))⟩

theorem paired_cons_closing (hl : l.statement = .closing) :
    Paired inside seen (l :: rest) ↔ inside = true ∧ Paired false seen rest := by
  have hfilter : (l :: rest).filter Line.isOpening = rest.filter Line.isOpening :=
    List.filter_cons_of_neg (by simp [Line.isOpening, hl])
  have hmarks : InTurn inside (Line.marks (l :: rest)) ↔ inside = true ∧ InTurn false (Line.marks rest) := by
    rw [Line.marks_cons_closing rest hl, inTurn_cons]
    cases inside <;> simp
  constructor
  · rintro ⟨hdirective, hturn, hnodup, hfresh⟩
    obtain ⟨hinside, hturn⟩ := hmarks.1 hturn
    exact ⟨hinside, (List.forall_mem_cons.1 hdirective).2, hturn, hfilter ▸ hnodup, hfilter ▸ hfresh⟩
  · rintro ⟨hinside, hdirective, hturn, hnodup, hfresh⟩
    exact ⟨List.forall_mem_cons.2 ⟨by simp [hl], hdirective⟩, hmarks.2 ⟨hinside, hturn⟩, hfilter.symm ▸ hnodup,
      hfilter.symm ▸ hfresh⟩

theorem paired_cons_plain (hl : l.Plain) : Paired inside seen (l :: rest) ↔ Paired inside seen rest := by
  have hfilter : (l :: rest).filter Line.isOpening = rest.filter Line.isOpening :=
    List.filter_cons_of_neg (by simp [hl.isOpening])
  constructor
  · rintro ⟨hdirective, hturn, hnodup, hfresh⟩
    rw [Line.marks_cons_plain rest hl] at hturn
    exact ⟨(List.forall_mem_cons.1 hdirective).2, hturn, hfilter ▸ hnodup, hfilter ▸ hfresh⟩
  · rintro ⟨hdirective, hturn, hnodup, hfresh⟩
    rw [← Line.marks_cons_plain rest hl] at hturn
    exact ⟨List.forall_mem_cons.2 ⟨hl.not_directive, hdirective⟩, hturn, hfilter.symm ▸ hnodup,
      hfilter.symm ▸ hfresh⟩

end Cons

namespace Pairing

variable {p p' : Pairing} {l : Line} {rest : List Line}

/-- Pairing goes through all lines and leaves nothing to complain of. -/
def Passes (p : Pairing) (lines : List Line) : Prop :=
  ∃ q, lines.foldlM step p = .ok q ∧ q.unclosed = [] ∧ q.outer = none

theorem passes_cons (h : p.step l = .ok p') : p.Passes (l :: rest) ↔ p'.Passes rest := by
  unfold Passes
  rw [List.foldlM_cons, h]
  rfl

theorem not_passes_cons {f : Fault} (h : p.step l = .error f) : ¬ p.Passes (l :: rest) := by
  rintro ⟨q, hq, -⟩
  rw [List.foldlM_cons, h] at hq
  cases hq

/-- A definition within another is remembered to the end. -/
theorem not_passes_of_outer (h : p.outer ≠ none) (lines : List Line) : ¬ p.Passes lines := by
  rintro ⟨q, hq, -, houter⟩
  exact h (outer_foldlM hq houter)

theorem step_opening {name : String} {params : Option Nat} (hl : l.statement = .opening name params)
    (hnew : l.text ∉ p.seen) :
    p.step l = .ok ⟨l :: p.unclosed, p.seen.insert l.text, p.outer <|> p.unclosed.getLast?⟩ :=
  step_eq_ok_iff.2 (.inl ⟨name, params, hl, hnew, rfl⟩)

theorem step_opening_seen {name : String} {params : Option Nat} (hl : l.statement = .opening name params)
    (hseen : l.text ∈ p.seen) : p.step l = .error (l.fault .openingRepeated) := by
  rw [← Std.ExtTreeSet.contains_iff_mem] at hseen
  unfold step
  simp only [hl]
  rw [if_pos hseen]

/-- **Run**: where at most one definition is open, pairing passes iff the lines are paired. -/
theorem passes_iff_paired (lines : List Line) (hlength : p.unclosed.length ≤ 1) (houter : p.outer = none) :
    p.Passes lines ↔ Paired p.isOpen p.seen lines := by
  induction lines generalizing p with
  | nil =>
    constructor
    · rintro ⟨q, hq, hclosed, -⟩
      cases hq
      exact ⟨List.forall_mem_nil _, inTurn_nil.2 (by simp [isOpen, hclosed]), List.nodup_nil,
        List.forall_mem_nil _⟩
    · intro h
      exact ⟨p, rfl, by simpa [isOpen] using inTurn_nil.1 h.inTurn, houter⟩
  | cons l rest ih =>
    rcases l.opening_or_closing_or_directive_or_plain with ⟨name, params, hl⟩ | hl | hl | hl
    · rw [paired_cons_opening hl]
      by_cases hseen : l.text ∈ p.seen
      · exact iff_of_false (not_passes_cons (step_opening_seen hl hseen)) fun h => h.2.1 hseen
      rw [passes_cons (step_opening hl hseen)]
      cases hunclosed : p.unclosed with
      | cons first others =>
        have hopen : p.isOpen = true := by simp [isOpen, hunclosed]
        refine iff_of_false (not_passes_of_outer ?_ rest) fun h => by simp [hopen] at h
        simp [houter]
      | nil =>
        have hopen : p.isOpen = false := by simp [isOpen, hunclosed]
        rw [ih (by simp) (by simp [houter]), and_iff_right hopen, and_iff_right hseen]
        rfl
    · rw [paired_cons_closing hl]
      cases hunclosed : p.unclosed with
      | nil =>
        have hstep : p.step l = .error (l.fault .closingUnmatched) := by simp only [step, hl, hunclosed]
        exact iff_of_false (not_passes_cons hstep) fun h => by simp [isOpen, hunclosed] at h
      | cons first others =>
        have hothers : others = [] := by simpa [hunclosed] using hlength
        have hopen : p.isOpen = true := by simp [isOpen, hunclosed]
        have hstep : p.step l = .ok { p with unclosed := [] } := by simp only [step, hl, hunclosed, hothers]
        rw [passes_cons hstep, ih (p := { p with unclosed := [] }) (Nat.zero_le 1) houter, and_iff_right hopen]
        rfl
    · have hstep : p.step l = .error (l.fault .strayPercent) := by simp only [step, hl]
      exact iff_of_false (not_passes_cons hstep) fun h => h.not_directive l List.mem_cons_self hl
    · rw [passes_cons (step_plain p hl), ih hlength houter, paired_cons_plain hl]

end Pairing

/-- **What is accepted.** -/
theorem check_iff_paired {lines : List Line} : check lines = .ok () ↔ Paired false ∅ lines :=
  check_eq_ok_iff.trans (Pairing.passes_iff_paired lines (Nat.zero_le 1) rfl)

/-! ## Pieces -/

/-- A piece of a file: a line of the program, or a definition with the line that ends it. -/
inductive Piece where
  | line (l : Line)
  | definition (b : Block) (closing : Line)

namespace Piece

/-- The lines of a piece. -/
def lines : Piece → List Line
  | line l => [l]
  | definition b closing => b.opening :: (b.body ++ [closing])

/-- What a piece leaves in the program: its line, or blank lines in the place of a definition. -/
def program : Piece → List Line
  | line l => [l]
  | definition b closing => (b.opening :: (b.body ++ [closing])).map Line.blanked

/-- The definition of a piece. -/
def block? : Piece → Option Block
  | line _ => none
  | definition b _ => some b

/-- A line of the program has no mark; a definition has one where it begins and one where it ends, and none
between. -/
def WellFormed : Piece → Prop
  | line l => l.Plain
  | definition b closing =>
    b.opening.statement = .opening b.name b.params ∧ (∀ l ∈ b.body, l.Plain) ∧ closing.statement = .closing

variable {p : Piece}

theorem WellFormed.plain_program (h : p.WellFormed) : ∀ l ∈ p.program, l.Plain := by
  cases p with
  | line l => exact List.forall_mem_singleton.2 h
  | definition b closing =>
    intro l hl
    obtain ⟨l', -, rfl⟩ := List.mem_map.1 hl
    exact l'.plain_blanked

theorem WellFormed.filter_isOpening (h : p.WellFormed) :
    p.lines.filter Line.isOpening = p.block?.toList.map Block.opening := by
  cases p with
  | line l => exact List.filter_cons_of_neg (by simp [Line.Plain.isOpening h])
  | definition b closing =>
    obtain ⟨hopening, hbody, hclosing⟩ := h
    have hrest : (b.body ++ [closing]).filter Line.isOpening = [] := by
      rw [List.filter_eq_nil_iff]
      intro l hl
      rcases List.mem_append.1 hl with hl | hl
      · simp [(hbody l hl).isOpening]
      · rw [List.mem_singleton.1 hl]
        simp [Line.isOpening, hclosing]
    rw [lines, List.filter_cons_of_pos (Line.isOpening_iff.2 ⟨_, _, hopening⟩), hrest]
    rfl

end Piece

/-- Lines whose marks alternate are pieces.  If they begin within a definition, what comes before them is the rest
of it. -/
theorem exists_pieces {lines : List Line} (hdirective : ∀ l ∈ lines, l.statement ≠ .directive) :
    (InTurn false (Line.marks lines) →
      ∃ pieces : List Piece, lines = pieces.flatMap Piece.lines ∧ ∀ p ∈ pieces, p.WellFormed) ∧
    (InTurn true (Line.marks lines) → ∃ (body : List Line) (closing : Line) (pieces : List Piece),
      lines = body ++ closing :: pieces.flatMap Piece.lines ∧ (∀ l ∈ body, l.Plain) ∧
        closing.statement = .closing ∧ ∀ p ∈ pieces, p.WellFormed) := by
  induction lines with
  | nil =>
    refine ⟨fun _ => ⟨[], rfl, List.forall_mem_nil _⟩, fun h => ?_⟩
    cases inTurn_nil.1 h
  | cons l rest ih =>
    obtain ⟨hl, hrest⟩ := List.forall_mem_cons.1 hdirective
    obtain ⟨houtside, hinside⟩ := ih hrest
    rcases l.opening_or_closing_or_directive_or_plain with ⟨name, params, hopening⟩ | hclosing | hdir | hplain
    · rw [Line.marks_cons_opening rest hopening, inTurn_cons, inTurn_cons]
      refine ⟨fun h => ?_, fun h => absurd h.1 (by decide)⟩
      obtain ⟨body, closing, pieces, rfl, hbody, hclosing, hpieces⟩ := hinside h.2
      refine ⟨.definition ⟨l, name, params, body⟩ closing :: pieces, by simp [Piece.lines], ?_⟩
      exact List.forall_mem_cons.2 ⟨⟨hopening, hbody, hclosing⟩, hpieces⟩
    · rw [Line.marks_cons_closing rest hclosing, inTurn_cons, inTurn_cons]
      refine ⟨fun h => absurd h.1 (by decide), fun h => ?_⟩
      obtain ⟨pieces, rfl, hpieces⟩ := houtside h.2
      exact ⟨[], l, pieces, rfl, List.forall_mem_nil _, hclosing, hpieces⟩
    · exact absurd hdir hl
    · rw [Line.marks_cons_plain rest hplain]
      refine ⟨fun h => ?_, fun h => ?_⟩
      · obtain ⟨pieces, rfl, hpieces⟩ := houtside h
        exact ⟨.line l :: pieces, rfl, List.forall_mem_cons.2 ⟨hplain, hpieces⟩⟩
      · obtain ⟨body, closing, pieces, rfl, hbody, hclosing, hpieces⟩ := hinside h
        exact ⟨l :: body, closing, pieces, rfl, List.forall_mem_cons.2 ⟨hplain, hbody⟩, hclosing, hpieces⟩

/-! ## Splitting -/

namespace Splitting

/-- The lines between the first and the last of a definition. -/
theorem foldl_body {body : List Line} (hbody : ∀ l ∈ body, l.Plain) (blocks : Array Block) (program : Array Line)
    (opening : Line) (name : String) (params : Option Nat) (done : Array Line) :
    body.foldl step ⟨blocks, program, some (opening, name, params, done)⟩ =
      ⟨blocks, program ++ (body.map Line.blanked).toArray, some (opening, name, params,
        done ++ body.toArray)⟩ := by
  induction body generalizing program done with
  | nil => simp
  | cons l rest ih =>
    obtain ⟨hl, hrest⟩ := List.forall_mem_cons.1 hbody
    have hstep : step ⟨blocks, program, some (opening, name, params, done)⟩ l =
        ⟨blocks, program.push l.blanked, some (opening, name, params, done.push l)⟩ := by
      unfold step
      split
      · contradiction
      · exact absurd ‹_› hl.not_closing
      · simp_all
      · contradiction
    rw [List.foldl_cons, hstep, ih hrest]
    simp

/-- **Step**: one piece. -/
theorem foldl_piece {p : Piece} (h : p.WellFormed) (blocks : Array Block) (program : Array Line) :
    p.lines.foldl step ⟨blocks, program, none⟩ =
      ⟨blocks ++ p.block?.toList.toArray, program ++ p.program.toArray, none⟩ := by
  cases p with
  | line l =>
    have hl : l.Plain := h
    show step ⟨blocks, program, none⟩ l = _
    rw [step_kept rfl hl.isOpening]
    simp [Piece.block?, Piece.program]
  | definition b closing =>
    obtain ⟨hopening, hbody, hclosing⟩ := h
    have hfirst : step ⟨blocks, program, none⟩ b.opening =
        ⟨blocks, program.push b.opening.blanked, some (b.opening, b.name, b.params, #[])⟩ := by
      simp only [step, hopening]
    rw [Piece.lines, List.foldl_cons, hfirst, List.foldl_append, foldl_body hbody, List.foldl_cons, List.foldl_nil]
    simp [step, hclosing, Piece.block?, Piece.program]

/-- **Run**: pieces one after the other. -/
theorem foldl_pieces {pieces : List Piece} (h : ∀ p ∈ pieces, p.WellFormed) (blocks : Array Block)
    (program : Array Line) : (pieces.flatMap Piece.lines).foldl step ⟨blocks, program, none⟩ =
      ⟨blocks ++ (pieces.filterMap Piece.block?).toArray, program ++ (pieces.flatMap Piece.program).toArray,
        none⟩ := by
  induction pieces generalizing blocks program with
  | nil => simp
  | cons p pieces ih =>
    obtain ⟨hp, hpieces⟩ := List.forall_mem_cons.1 h
    rw [List.flatMap_cons, List.foldl_append, foldl_piece hp, ih hpieces]
    cases p with
    | line l => simp [Piece.block?, List.filterMap_cons]
    | definition b closing => simp [Piece.block?]

end Splitting

theorem split_pieces {pieces : List Piece} (h : ∀ p ∈ pieces, p.WellFormed) :
    split (pieces.flatMap Piece.lines) = (pieces.filterMap Piece.block?, pieces.flatMap Piece.program) := by
  unfold split
  rw [Splitting.foldl_pieces h #[] #[]]
  simp

/-- A file that is accepted, in pieces. -/
theorem exists_pieces_of_check {lines : List Line} (h : check lines = .ok ()) : ∃ pieces : List Piece,
    (∀ p ∈ pieces, p.WellFormed) ∧ lines = pieces.flatMap Piece.lines ∧
      (split lines).1 = pieces.filterMap Piece.block? ∧
      (split lines).2 = pieces.flatMap Piece.program := by
  have hpaired := check_iff_paired.1 h
  obtain ⟨pieces, rfl, hpieces⟩ := (exists_pieces hpaired.not_directive).1 hpaired.inTurn
  rw [split_pieces hpieces]
  exact ⟨pieces, hpieces, rfl, rfl, rfl⟩

section Parts

variable {lines : List Line} (h : check lines = .ok ())
include h

theorem openings_split : (split lines).1.map Block.opening = lines.filter Line.isOpening := by
  obtain ⟨pieces, hpieces, hlines, hblocks, -⟩ := exists_pieces_of_check h
  rw [hblocks, hlines]
  clear hblocks hlines
  induction pieces with
  | nil => rfl
  | cons p pieces ih =>
    obtain ⟨hp, hpieces⟩ := List.forall_mem_cons.1 hpieces
    rw [List.flatMap_cons, List.filter_append, hp.filter_isOpening, ← ih hpieces]
    cases p with
    | line l => rfl
    | definition b closing => rfl

theorem plain_body_split : ∀ b ∈ (split lines).1, ∀ l ∈ b.body, l.Plain := by
  obtain ⟨pieces, hpieces, -, hblocks, -⟩ := exists_pieces_of_check h
  rw [hblocks]
  intro b hb
  obtain ⟨p, hp, hpb⟩ := List.mem_filterMap.1 hb
  cases p with
  | line l => cases hpb
  | definition b' closing =>
    cases hpb
    exact (hpieces _ hp).2.1

theorem plain_program_split : ∀ l ∈ (split lines).2, l.Plain := by
  obtain ⟨pieces, hpieces, -, -, hprogram⟩ := exists_pieces_of_check h
  rw [hprogram]
  intro l hl
  obtain ⟨p, hp, hpl⟩ := List.mem_flatMap.1 hl
  exact (hpieces p hp).plain_program l hpl

end Parts

theorem length_program_split (lines : List Line) : (split lines).2.length = lines.length := by
  rw [split_program, ← List.length_map Line.number, numbers_extract, List.length_map]

end Block

/-! ## What is refused later -/

/-- Whether a cause is one of first and last lines of definitions, or of import statements, in a wrong place. -/
def Cause.ofStructure : Cause → Bool
  | strayPercent => true
  | definitionNested => true
  | strayAt => true
  | _ => false

theorem Cause.ofStructure_of_ofOperands {c : Cause} (h : c.ofOperands = true) : c.ofStructure = false := by
  revert h
  cases c <;> simp [ofOperands, ofStructure]

/-- A line of a definition that has no mark and is no import statement is refused for its operands only. -/
theorem Block.Draft.step_ofOperands (b : Block) (params : Nat) (d : Block.Draft) {line : Line}
    (hplain : line.Plain) (himport : line.isImport = false) : OfOperandsAt (d.step b params line) := by
  cases hl : line.statement with
  | blank =>
    simp only [step, hl]
    exact .ok _
  | label name =>
    simp only [step, hl]
    exact .ok _
  | instruction ops => exact step_instruction_ofOperands b params d hl
  | call name args => exact step_call_ofOperands b params d hl
  | importing => simp [Line.isImport, hl] at himport
  | opening name params => exact absurd hl (hplain.not_opening name params)
  | closing => exact absurd hl hplain.not_closing
  | directive => exact absurd hl hplain.not_directive

namespace Symbols

/-- So is a definition of such lines, but for names. -/
theorem define_not_ofStructure {b : Block} (hbody : ∀ l ∈ b.body, l.Plain ∧ l.isImport = false) (s : Symbols) :
    OnlyFails (fun f : Fault => f.cause.ofStructure = false) (s.define b) := by
  unfold define
  refine .bind ?_ fun _ => .bind ?_ fun params => .bind ?_ fun _ =>
    .bind (.foldlM (fun locals line _ => ?_) _) fun locals =>
    .bind (.foldlM (fun d line hmem => ?_) _) fun d => .pure _
  · exact .bind (.ensure rfl) fun _ => .bind (.ensure rfl) fun _ => .ensure rfl
  · unfold Block.paramCount
    split
    · exact .ok _
    · exact .error rfl
  · unfold Block.checkCalls
    split
    · exact .error rfl
    · exact .ok _
  · unfold Block.addLocal
    split
    · exact .bind (.ensure rfl) fun _ => .bind (.ensure rfl) fun _ => .bind (.ensure rfl) fun _ => .pure _
    · exact .ok _
  · obtain ⟨hplain, himport⟩ := hbody line hmem
    exact (Block.Draft.step_ofOperands b params d hplain himport).imp fun _ => Cause.ofStructure_of_ofOperands

/-- A line of the program that has no mark is refused for its operands only. -/
theorem expandLine_ofOperands {line : Line} (hplain : line.Plain) (s : Symbols) :
    OfOperandsAt (s.expandLine line) := by
  unfold expandLine
  split
  · exact .ok _
  · exact .ok _
  · exact .ok _
  · exact .bind ((Scope.checkInstruction_ofOperands _ _ _).at_line line) fun _ => .pure _
  · exact .bind ((Scope.checkCall_ofOperands _ _ _ _).at_line line) fun _ => s.expand_ofOperands _ line _ _
  · exact absurd ‹_› (hplain.not_opening _ _)
  · exact absurd ‹_› hplain.not_closing
  · exact absurd ‹_› hplain.not_directive

theorem expandAll_ofOperands {program : List Line} (hplain : ∀ l ∈ program, l.Plain) (s : Symbols) :
    OfOperandsAt (s.expandAll program) :=
  .bind (.foldlM (fun done line hmem =>
    .bind (expandLine_ofOperands (hplain line hmem) done.2) fun _ => .pure _) _) fun _ => .pure _

end Symbols

/-- Import statements that are accepted stand in no definition. -/
theorem Import.isImport_body_of_check {lines : List Line} (h : Import.check lines = .ok ()) :
    ∀ b ∈ (Block.split lines).1, ∀ l ∈ b.body, l.isImport = false := by
  obtain ⟨hplace, -⟩ := Import.check_eq_ok_iff.1 h
  have hmoved := (Block.split_forall (P := fun l => l.isImport = false) (fun _ _ => rfl) hplace).1
  -- the definitions of a file are those of the lines in definitions
  have halike := Block.split_blocks
    (List.forall₂_same.2 fun (l : Line) (_ : l ∈ (Block.extract false lines).2) => rfl)
  generalize (Block.split lines).1 = blocks at halike ⊢
  generalize (Block.split (Block.extract false lines).2).1 = moved at halike hmoved
  induction halike with
  | nil => exact List.forall_mem_nil _
  | cons hb _ ih =>
    obtain ⟨hfirst, hrest⟩ := List.forall_mem_cons.1 hmoved
    exact List.forall_mem_cons.2 ⟨hb.body.symm.isImport hfirst, ih hrest⟩

namespace Block

/-- **Pairing and splitting agree.**  A file is accepted iff it has no other lines with a percent sign, the first
and last lines of definitions alternate, and no two first lines are the same.  Then it consists of pieces: a line
of the program stays where it is, and a definition gives one block with its first line and the lines up to its
last, and leaves blank lines.  If the import statements are accepted too, then no definition and no line of the
program is refused for a mark or an import statement in a wrong place. -/
theorem check_split_agree (lines : List Line) :
    (check lines = .ok () ↔ (∀ l ∈ lines, l.statement ≠ .directive) ∧
      (∃ n, Line.marks lines = (List.replicate n [true, false]).flatten) ∧
      ((lines.filter Line.isOpening).map Line.text).Nodup) ∧
    (check lines = .ok () → (split lines).1.map Block.opening = lines.filter Line.isOpening ∧
      (∀ b ∈ (split lines).1, ∀ l ∈ b.body, l.Plain) ∧ (∀ l ∈ (split lines).2, l.Plain) ∧
      (split lines).2.length = lines.length ∧ ∃ pieces : List Piece, (∀ p ∈ pieces, p.WellFormed) ∧
        lines = pieces.flatMap Piece.lines ∧ (split lines).1 = pieces.filterMap Piece.block? ∧
        (split lines).2 = pieces.flatMap Piece.program) ∧
    (check lines = .ok () → Import.check lines = .ok () →
      (∀ b ∈ (split lines).1, ∀ (s : Symbols) (fault : Fault), s.define b = .error fault →
        fault.cause ≠ .strayPercent ∧ fault.cause ≠ .definitionNested ∧ fault.cause ≠ .strayAt) ∧
      ∀ (s : Symbols) (fault : Fault), s.expandAll (split lines).2 = .error fault →
        fault.cause ≠ .strayPercent) := by
  refine ⟨?_, fun h => ?_, fun h himport => ⟨fun b hb s fault hfault => ?_, fun s fault hfault => ?_⟩⟩
  · rw [check_iff_paired]
    exact ⟨fun h => ⟨h.not_directive, h.inTurn, h.nodup⟩, fun ⟨hdirective, hturn, hnodup⟩ =>
      ⟨hdirective, hturn, hnodup, fun _ _ => Std.ExtTreeSet.not_mem_empty⟩⟩
  · exact ⟨openings_split h, plain_body_split h, plain_program_split h, length_program_split lines,
      exists_pieces_of_check h⟩
  · have hbody : ∀ l ∈ b.body, l.Plain ∧ l.isImport = false := fun l hl =>
      ⟨plain_body_split h b hb l hl, Import.isImport_body_of_check himport b hb l hl⟩
    have hcause : fault.cause.ofStructure = false := Symbols.define_not_ofStructure hbody s fault hfault
    refine ⟨?_, ?_, ?_⟩
    all_goals
      intro he
      rw [he] at hcause
      cases hcause
  · have hcause : fault.cause.ofOperands = true :=
      Symbols.expandAll_ofOperands (plain_program_split h) s fault hfault
    intro he
    rw [he] at hcause
    cases hcause

/-- A definition between two lines of the program. -/
def hopLines : List Line :=
  [⟨"start:", 1, "[code]", .label "start"⟩, ⟨"%macro hop 1", 2, "[code]", .opening "hop" (some 1)⟩,
    ⟨"%0, 0, over", 3, "[code]", .instruction [.param 0, .number 0, .label "over"]⟩,
    ⟨"over:", 4, "[code]", .label "over"⟩, ⟨"%endmacro", 5, "[code]", .closing⟩,
    ⟨"hop 7", 6, "[code]", .call "hop" [.number 7]⟩]

theorem check_split_agree_hopLines : check hopLines = .ok () ∧ Import.check hopLines = .ok () ∧
    (∃ n, Line.marks hopLines = (List.replicate n [true, false]).flatten) ∧
    (∃ pieces : List Piece, (∀ p ∈ pieces, p.WellFormed) ∧ hopLines = pieces.flatMap Piece.lines ∧
      (split hopLines).1 = pieces.filterMap Piece.block?) ∧ (split hopLines).1.length = 1 ∧
    ∀ fault, Symbols.expandAll {} (split hopLines).2 = .error fault → fault.cause ≠ .strayPercent := by
  obtain ⟨hiff, hsplit, hlater⟩ := check_split_agree hopLines
  have hcheck : check hopLines = .ok () := by
    have hok : (check hopLines).toOption = some () := by decide +kernel
    exact toOption_eq_some.1 hok
  have himport : Import.check hopLines = .ok () := by
    have hok : (Import.check hopLines).toOption = some () := by decide +kernel
    exact toOption_eq_some.1 hok
  obtain ⟨-, -, -, -, pieces, hpieces, hlines, hblocks, -⟩ := hsplit hcheck
  exact ⟨hcheck, himport, (hiff.1 hcheck).2.1, ⟨pieces, hpieces, hlines, hblocks⟩, by decide +kernel,
    (hlater hcheck himport).2 {}⟩

end Block

end Abcout
