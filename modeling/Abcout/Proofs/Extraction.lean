import Abcout.Proofs.Alike
import Abcout.Proofs.Contexts

/-!
# Abcout.Proofs.Extraction — definitions moved to a file of their own

`Block.extract` takes the lines of definitions out of a file, in order, and leaves blank lines in their place.

`Assembly.run_extract`: when these lines are put in a file that is imported as a whole, the source assembles to the
same product as before, provided that no definition mentions a label of the program.
-/

namespace Abcout

/-! ## Lines of definitions -/

/-- Whether a line is the first of a definition. -/
def Line.isOpening (l : Line) : Bool :=
  match l.statement with
  | .opening _ _ => true
  | _ => false

theorem Line.isOpening_iff {l : Line} : l.isOpening = true ↔
    ∃ name params, l.statement = .opening name params := by
  unfold Line.isOpening
  cases l.statement <;> simp

namespace Block

/-- The lines of a file with those of definitions blanked, and the lines of definitions.  `inside` says whether the
first line stands in a definition. -/
def extract (inside : Bool) : List Line → List Line × List Line
  | [] => ([], [])
  | l :: rest =>
    if inside || l.isOpening then
      let (kept, moved) := extract (l.statement != .closing) rest
      (l.blanked :: kept, l :: moved)
    else
      let (kept, moved) := extract false rest
      (l :: kept, moved)

section Extract

variable {inside : Bool} {l : Line} (rest : List Line)

theorem extract_cons_moved (h : inside = true ∨ l.isOpening = true) : extract inside (l :: rest) =
    (l.blanked :: (extract (l.statement != .closing) rest).1,
      l :: (extract (l.statement != .closing) rest).2) := by
  rw [extract, if_pos (Bool.or_eq_true_iff.2 h)]

theorem extract_cons_kept (h : l.isOpening = false) :
    extract false (l :: rest) = (l :: (extract false rest).1, (extract false rest).2) := by
  rw [extract, if_neg (by simp [h])]

end Extract

/-- A line is moved, or it is kept. -/
theorem moved_or_kept (inside : Bool) (l : Line) :
    (inside = true ∨ l.isOpening = true) ∨ inside = false ∧ l.isOpening = false := by
  cases inside with
  | true => exact .inl (.inl rfl)
  | false => cases l.isOpening <;> simp

theorem numbers_extract (inside : Bool) (lines : List Line) :
    (extract inside lines).1.map Line.number = lines.map Line.number := by
  induction lines generalizing inside with
  | nil => rfl
  | cons l rest ih =>
    rcases moved_or_kept inside l with h | ⟨rfl, h⟩
    · rw [extract_cons_moved rest h, List.map_cons, List.map_cons, ih, Line.blanked]
    · rw [extract_cons_kept rest h, List.map_cons, List.map_cons, ih]

/-- What holds of all lines of a file, and stays when a line is blanked, holds of the lines kept and of the lines
moved. -/
theorem extract_forall {P : Line → Prop} (hblank : ∀ l : Line, P l → P l.blanked) (inside : Bool)
    {lines : List Line} (hl : ∀ l ∈ lines, P l) :
    (∀ l ∈ (extract inside lines).1, P l) ∧ ∀ l ∈ (extract inside lines).2, P l := by
  induction lines generalizing inside with
  | nil => exact ⟨List.forall_mem_nil _, List.forall_mem_nil _⟩
  | cons l rest ih =>
    obtain ⟨hl, hrest⟩ := List.forall_mem_cons.1 hl
    rcases moved_or_kept inside l with h | ⟨rfl, h⟩
    · obtain ⟨hkept, hmoved⟩ := ih (l.statement != .closing) hrest
      rw [extract_cons_moved rest h]
      exact ⟨List.forall_mem_cons.2 ⟨hblank l hl, hkept⟩, List.forall_mem_cons.2 ⟨hl, hmoved⟩⟩
    · obtain ⟨hkept, hmoved⟩ := ih false hrest
      rw [extract_cons_kept rest h]
      exact ⟨List.forall_mem_cons.2 ⟨hl, hkept⟩, hmoved⟩

/-! ## Splitting -/

namespace Splitting

variable {s s' : Splitting} {l l' : Line}

theorem step_kept (hs : s.current.isSome = false) (hl : l.isOpening = false) :
    s.step l = { s with program := s.program.push l } := by
  rw [Option.isSome_eq_false_iff, Option.isNone_iff_eq_none] at hs
  unfold step
  split
  · rename_i name params hopening _
    rw [Line.isOpening_iff.2 ⟨name, params, hopening⟩] at hl
    cases hl
  · rename_i hcur
    rw [hs] at hcur
    cases hcur
  · rename_i hcur _
    rw [hs] at hcur
    cases hcur
  · rfl

theorem step_moved (h : s.current.isSome = true ∨ l.isOpening = true) :
    (s.step l).program = s.program.push l.blanked ∧ (s.step l).current.isSome = (l.statement != .closing) := by
  unfold step
  split
  · rename_i hl _
    exact ⟨rfl, by rw [hl]; rfl⟩
  · rename_i hl _
    exact ⟨rfl, by rw [hl]; rfl⟩
  · rename_i hclosing
    exact ⟨rfl, (bne_iff_ne.2 hclosing).symm⟩
  · rename_i hcur hopening
    rw [hcur, Line.isOpening_iff] at h
    rcases h with h | ⟨name, params, hl⟩
    · cases h
    · exact (hopening name params hl).elim

/-- What is kept is the program. -/
theorem program_foldl (lines : List Line) (s : Splitting) :
    (lines.foldl step s).program.toList = s.program.toList ++ (extract s.current.isSome lines).1 := by
  induction lines generalizing s with
  | nil => simp [extract]
  | cons l rest ih =>
    rw [List.foldl_cons, ih]
    rcases moved_or_kept s.current.isSome l with h | ⟨hs, hl⟩
    · obtain ⟨hprogram, hcurrent⟩ := step_moved h
      rw [extract_cons_moved rest h, hprogram, hcurrent]
      simp
    · rw [step_kept hs hl, hs, extract_cons_kept rest hl]
      simp

/-- Splittings that have found alike definitions. -/
structure Alike (s s' : Splitting) : Prop where
  blocks : List.Forall₂ Block.Alike s.blocks.toList s'.blocks.toList
  current : Option.Rel
    (fun c c' => c'.2.1 = c.2.1 ∧ c'.2.2.1 = c.2.2.1 ∧ Line.Alike c.2.2.2.toList c'.2.2.2.toList)
    s.current s'.current

theorem Alike.step (h : s.Alike s') (hl : l.statement = l'.statement) : (s.step l).Alike (s'.step l') := by
  obtain ⟨blocks, program, current⟩ := s
  obtain ⟨blocks', program', current'⟩ := s'
  obtain ⟨hblocks, hcurrent⟩ := h
  unfold Splitting.step
  rw [← hl]
  cases hcurrent with
  | none =>
    cases l.statement with
    | opening name params => exact ⟨hblocks, .some ⟨rfl, rfl, .nil⟩⟩
    | _ => exact ⟨hblocks, .none⟩
  | some hc =>
    obtain ⟨hname, hparams, hbody⟩ := hc
    have hpush := hbody.append (.cons hl .nil)
    rw [← Array.toList_push, ← Array.toList_push] at hpush
    cases hstmt : l.statement with
    | closing =>
      refine ⟨?_, .none⟩
      simp only [Array.toList_push]
      exact List.rel_append hblocks (.cons ⟨hname, hparams, hbody⟩ .nil)
    | _ => exact ⟨hblocks, .some ⟨hname, hparams, hpush⟩⟩

/-- The definitions of a file are those of the lines that are moved. -/
theorem Alike.foldl_extract {lines moved : List Line} (h : s.Alike s')
    (hmoved : Line.Alike (extract s.current.isSome lines).2 moved) :
    (lines.foldl Splitting.step s).Alike (moved.foldl Splitting.step s') := by
  induction lines generalizing s s' moved with
  | nil =>
    cases hmoved
    exact h
  | cons l rest ih =>
    rcases moved_or_kept s.current.isSome l with hl | ⟨hs, hl⟩
    · rw [extract_cons_moved rest hl, ← (step_moved hl).2] at hmoved
      obtain ⟨l', moved', hstmt, hmoved', rfl⟩ := List.forall₂_cons_left_iff.1 hmoved
      rw [List.foldl_cons, List.foldl_cons]
      exact ih (h.step hstmt) hmoved'
    · rw [hs, extract_cons_kept rest hl] at hmoved
      rw [List.foldl_cons, step_kept hs hl]
      refine ih ⟨h.blocks, h.current⟩ ?_
      show Line.Alike (extract s.current.isSome rest).2 moved
      rw [hs]
      exact hmoved

end Splitting

theorem split_program (lines : List Line) : (split lines).2 = (extract false lines).1 := by
  show (lines.foldl Splitting.step {}).program.toList = _
  rw [Splitting.program_foldl]
  rfl

theorem split_blocks {lines moved : List Line} (h : Line.Alike (extract false lines).2 moved) :
    List.Forall₂ Alike (split lines).1 (split moved).1 := by
  have hstart : Splitting.Alike {} {} := ⟨.nil, .none⟩
  exact (hstart.foldl_extract h).blocks

/-! ## Pairing -/

namespace Pairing

variable {p p' q : Pairing} {l l' : Line} {lines moved : List Line}

/-- Nested definitions are remembered. -/
theorem outer_step (h : p.step l = .ok q) (hq : q.outer = none) : p.outer = none := by
  rcases step_eq_ok_iff.1 h with ⟨name, params, -, -, rfl⟩ | ⟨first, rest, -, -, rfl⟩ | ⟨-, rfl⟩
  · exact ((Option.orElse_eq_none _ _).1 hq).1
  · exact hq
  · exact hq

theorem outer_foldlM (h : lines.foldlM step p = .ok q) (hq : q.outer = none) : p.outer = none := by
  induction lines generalizing p with
  | nil =>
    cases h
    exact hq
  | cons l rest ih =>
    rw [List.foldlM_cons, bind_eq_ok] at h
    obtain ⟨p₁, hp₁, h⟩ := h
    exact outer_step hp₁ (ih h)

/-- Pairings that differ in the lines that are remembered only. -/
structure Alike (p p' : Pairing) : Prop where
  unclosed : p'.unclosed.length = p.unclosed.length
  seen : p'.seen = p.seen
  outer : p'.outer.isSome = p.outer.isSome

theorem Alike.step (hp : p.Alike p') (hl : l.statement = l'.statement)
    (htext : ∀ name params, l.statement = .opening name params → l'.text = l.text) (h : p.step l = .ok q) :
    ∃ q', p'.step l' = .ok q' ∧ q.Alike q' := by
  obtain ⟨hunclosed, hseen, houter⟩ := hp
  rcases step_eq_ok_iff.1 h with
    ⟨name, params, hopening, hnew, rfl⟩ | ⟨first, rest, hclosing, hfirst, rfl⟩ | ⟨hplain, rfl⟩
  · have htext' := htext name params hopening
    refine ⟨_, step_eq_ok_iff.2 (.inl ⟨name, params, hl ▸ hopening, by rwa [htext', hseen], rfl⟩), ?_, ?_, ?_⟩
    · simp [hunclosed]
    · rw [htext', hseen]
    · -- there is an outermost definition in both, or in none
      have hlast : p'.unclosed.getLast?.isSome = p.unclosed.getLast?.isSome := by
        rw [Bool.eq_iff_iff, List.getLast?_isSome, List.getLast?_isSome, ← List.length_pos_iff,
          ← List.length_pos_iff, hunclosed]
      cases ho : p.outer <;> cases ho' : p'.outer <;> simp_all
  · rw [hfirst] at hunclosed
    obtain ⟨first', rest', hfirst'⟩ := List.exists_cons_of_length_eq_add_one hunclosed
    rw [hfirst'] at hunclosed
    exact ⟨_, step_eq_ok_iff.2 (.inr (.inl ⟨first', rest', hl ▸ hclosing, hfirst', rfl⟩)), Nat.succ.inj hunclosed,
      hseen, houter⟩
  · have hplain' : l'.Plain := ⟨hl ▸ hplain.not_opening, hl ▸ hplain.not_closing, hl ▸ hplain.not_directive⟩
    exact ⟨p', step_plain p' hplain', hunclosed, hseen, houter⟩

theorem Alike.closed (hq : p.Alike p') (hunclosed : p.unclosed = []) (houter : p.outer = none) :
    p'.unclosed = [] ∧ p'.outer = none := by
  have hunclosed' := hq.unclosed
  have houter' := hq.outer
  rw [hunclosed, List.length_nil, List.length_eq_zero_iff] at hunclosed'
  rw [houter, Option.isSome_none, Option.isSome_eq_false_iff, Option.isNone_iff_eq_none] at houter'
  exact ⟨hunclosed', houter'⟩

/-- Whether a definition is open. -/
def isOpen (p : Pairing) : Bool := !p.unclosed.isEmpty

theorem step_kept (hp : p.isOpen = false) (hl : l.isOpening = false) (h : p.step l = .ok q) : l.Plain ∧ q = p := by
  have hunclosed : p.unclosed = [] := by simpa [isOpen] using hp
  rcases step_eq_ok_iff.1 h with ⟨name, params, hopening, -⟩ | ⟨first, rest, -, hfirst, -⟩ | hplain
  · rw [Line.isOpening_iff.2 ⟨name, params, hopening⟩] at hl
    cases hl
  · rw [hunclosed] at hfirst
    cases hfirst
  · exact hplain

/-- After a line of a definition, one is open unless this was its last line; where none begins within another, it
is the only one. -/
theorem step_moved (hle : p.unclosed.length ≤ 1) (hl : p.isOpen = true ∨ l.isOpening = true) (h : p.step l = .ok q)
    (hq : q.outer = none) : q.unclosed.length ≤ 1 ∧ q.isOpen = (l.statement != .closing) := by
  rcases step_eq_ok_iff.1 h with
    ⟨name, params, hopening, -, rfl⟩ | ⟨first, rest, hclosing, hfirst, rfl⟩ | ⟨hplain, rfl⟩
  · -- a definition that began within another would be remembered
    have hunclosed : p.unclosed = [] := List.getLast?_eq_none_iff.1 ((Option.orElse_eq_none _ _).1 hq).2
    refine ⟨by simp [hunclosed], ?_⟩
    rw [hopening]
    rfl
  · have hrest : rest = [] := by simpa [hfirst] using hle
    refine ⟨by simp [hrest], ?_⟩
    rw [hclosing, isOpen, hrest]
    rfl
  · refine ⟨hle, ?_⟩
    rcases hl with hl | hl
    · rw [hl]
      exact (bne_iff_ne.2 hplain.not_closing).symm
    · obtain ⟨name, params, hl⟩ := Line.isOpening_iff.1 hl
      exact (hplain.not_opening name params hl).elim

/-- Where definitions pair up, so do those of the lines that are moved, and the lines kept have none. -/
theorem Alike.foldlM_extract (hp : p.Alike p') (hle : p.unclosed.length ≤ 1)
    (hmoved : List.Forall₂ (fun l l' => l'.text = l.text ∧ l.statement = l'.statement)
      (extract p.isOpen lines).2 moved)
    (h : lines.foldlM Pairing.step p = .ok q) (hq : q.outer = none) :
    (∃ q', moved.foldlM Pairing.step p' = .ok q' ∧ q.Alike q') ∧ ∀ l ∈ (extract p.isOpen lines).1, l.Plain := by
  induction lines generalizing p p' moved with
  | nil =>
    cases hmoved
    cases h
    exact ⟨⟨p', rfl, hp⟩, List.forall_mem_nil _⟩
  | cons l rest ih =>
    rw [List.foldlM_cons, bind_eq_ok] at h
    obtain ⟨p₁, hp₁, h⟩ := h
    rcases moved_or_kept p.isOpen l with hl | ⟨hopen, hl⟩
    · rw [extract_cons_moved rest hl] at hmoved ⊢
      obtain ⟨l', moved', ⟨htext, hstmt⟩, hmoved', rfl⟩ := List.forall₂_cons_left_iff.1 hmoved
      obtain ⟨p₁', hp₁', halike⟩ := hp.step hstmt (fun _ _ _ => htext) hp₁
      obtain ⟨hle₁, hopen⟩ := step_moved hle hl hp₁ (outer_foldlM h hq)
      rw [← hopen] at hmoved' ⊢
      obtain ⟨⟨q', hq', halike'⟩, hplain⟩ := ih halike hle₁ hmoved' h
      refine ⟨⟨q', ?_, halike'⟩, List.forall_mem_cons.2 ⟨⟨nofun, nofun, nofun⟩, hplain⟩⟩
      rw [List.foldlM_cons, hp₁']
      exact hq'
    · obtain ⟨hplain, rfl⟩ := step_kept hopen hl hp₁
      rw [hopen, extract_cons_kept rest hl, ← hopen] at hmoved ⊢
      obtain ⟨hrun, hplains⟩ := ih hp hle hmoved h
      exact ⟨hrun, List.forall_mem_cons.2 ⟨hplain, hplains⟩⟩

end Pairing

theorem check_eq_ok_iff {lines : List Line} : check lines = .ok () ↔
    ∃ q, lines.foldlM Pairing.step {} = .ok q ∧ q.unclosed = [] ∧ q.outer = none := by
  unfold check
  rw [bind_eq_ok]
  refine exists_congr fun q => and_congr_right fun _ => ?_
  cases q.unclosed <;> cases q.outer <;> simp

theorem check_extract {lines moved : List Line}
    (hmoved : List.Forall₂ (fun l l' => l'.text = l.text ∧ l.statement = l'.statement)
      (extract false lines).2 moved)
    (h : check lines = .ok ()) : check moved = .ok () ∧ ∀ l ∈ (extract false lines).1, l.Plain := by
  obtain ⟨q, hfold, hunclosed, houter⟩ := check_eq_ok_iff.1 h
  have hstart : Pairing.Alike {} {} := ⟨rfl, rfl, rfl⟩
  obtain ⟨⟨q', hfold', halike⟩, hplain⟩ := hstart.foldlM_extract (Nat.zero_le 1) hmoved hfold houter
  exact ⟨check_eq_ok_iff.2 ⟨q', hfold', halike.closed hunclosed houter⟩, hplain⟩

end Block

/-! ## Registration -/

namespace Label

theorem refusal?_of_alike {last last' : Nat} {labels : LabelTable} {line line' : Line} {name : String}
    (hlast : line'.number = last' → line.number = last) (h : refusal? last labels line name = none) :
    refusal? last' labels line' name = none := by
  unfold refusal? at h ⊢
  split_ifs at h with hinitial hnumber hmnemonic hidentifier hcontains
  rw [if_neg hinitial, if_neg (fun he => hnumber (hlast he)), if_neg hmnemonic, if_neg hidentifier,
    if_neg hcontains]

/-- Labels of alike programs are registered alike, if the last line stays the last. -/
theorem foldl_step_alike {last last' : Nat} {isMacro isMacro' : String → Bool} {lines lines' : List Line}
    (hlines : List.Forall₂ (fun l l' => l.statement = l'.statement ∧ (l'.number = last' → l.number = last))
      lines lines')
    {r r' : Registration} (hlabels : r'.labels = r.labels) (hr' : r'.fault = none)
    (h : (lines.foldl (Registration.step last isMacro) r).fault = none) :
    (lines'.foldl (Registration.step last' isMacro') r').fault = none := by
  induction hlines generalizing r r' with
  | nil => exact hr'
  | @cons l l' lines lines' hl _ ih =>
    obtain ⟨hstmt, hlast⟩ := hl
    have hr := (foldl_step_eq h).1
    rw [List.foldl_cons] at h ⊢
    have hstep := (foldl_step_eq h).1
    cases hl : l.statement with
    | label name =>
      simp only [Registration.step, hr, hl] at h hstep
      rw [hl] at hstmt
      cases hrefusal : refusal? last r.labels l name with
      | some cause =>
        rw [hrefusal] at hstep
        cases hstep
      | none =>
        have hrefusal' := refusal?_of_alike hlast hrefusal
        rw [← hlabels] at hrefusal'
        rw [hrefusal] at h
        simp only [Registration.step, hr', ← hstmt, hrefusal']
        exact ih (by rw [hlabels]) rfl h
    | _ =>
      simp only [Registration.step, hr, hl] at h
      rw [hl] at hstmt
      simp only [Registration.step, hr', ← hstmt]
      exact ih hlabels hr' h

/-- The number of the last line, behind one more line. -/
theorem lastNumber_cons_shifted {line : Line} {lines lines' : List Line} (hline : line.number = 1)
    (h : List.Forall₂ (fun l l' => l'.number = l.number + 1) lines lines') :
    lastNumber (line :: lines') = lastNumber lines + 1 := by
  have hfold : ∀ n, lines'.foldl (fun n l => max n l.number) (n + 1) =
      lines.foldl (fun n l => max n l.number) n + 1 := by
    induction h with
    | nil => exact fun n => rfl
    | cons hl _ ih =>
      intro n
      rw [List.foldl_cons, List.foldl_cons, hl, Nat.add_max_add_right, ih]
  rw [lastNumber, lastNumber, List.foldl_cons, hline]
  exact hfold 0

end Label

/-! ## Loading -/

theorem Line.forall₂_numbered (file : String) (k : Nat) (lines : List Line) :
    List.Forall₂ (fun l l' => l'.text = l.text ∧ l.statement = l'.statement) lines (numbered file k lines) := by
  induction lines generalizing k with
  | nil => exact .nil
  | cons l rest ih => exact .cons ⟨rfl, rfl⟩ (ih (k + 1))

theorem Line.Alike.isImport {xs ys : List Line} (h : Line.Alike xs ys) (hxs : ∀ l ∈ xs, l.isImport = false) :
    ∀ l ∈ ys, l.isImport = false := by
  intro l' hl'
  obtain ⟨l, hl, hstmt⟩ := h.exists_of_mem hl'
  rw [Line.isImport, ← hstmt]
  exact hxs l hl

theorem Line.Alike.plain {xs ys : List Line} (h : Line.Alike xs ys) (hxs : ∀ l ∈ xs, l.Plain) :
    ∀ l ∈ ys, l.Plain := by
  intro l' hl'
  obtain ⟨l, hl, hstmt⟩ := h.exists_of_mem hl'
  obtain ⟨hopening, hclosing, hdirective⟩ := hxs l hl
  rw [hstmt] at hclosing hdirective
  exact ⟨hstmt ▸ hopening, hclosing, hdirective⟩

theorem Line.alike_numbered (file : String) (k : Nat) (lines : List Line) :
    Line.Alike lines (numbered file k lines) :=
  (forall₂_numbered file k lines).imp fun _ _ h => h.2

/-- Lines that were numbered from `k` on, numbered from the next number on. -/
theorem Line.forall₂_numbered_succ (file : String) {k : Nat} {lines : List Line}
    (h : lines.map Line.number = List.range' k lines.length) :
    List.Forall₂ (fun l l' => l.statement = l'.statement ∧ l'.number = l.number + 1) lines
      (numbered file (k + 1) lines) := by
  induction lines generalizing k with
  | nil => exact .nil
  | cons l rest ih =>
    rw [List.map_cons, List.length_cons, List.range'_succ] at h
    obtain ⟨hl, hrest⟩ := List.cons.inj h
    exact .cons ⟨rfl, by rw [hl]⟩ (ih hrest)

namespace Import

variable {tree : FileTree} {chain : List Location} {directory : String} {lines : List Line}

theorem filter_isImport (h : ∀ l ∈ lines, l.isImport = false) : lines.filter Line.isImport = [] :=
  List.filter_eq_nil_iff.2 fun l hl => by simp [h l hl]

/-- A file that is imported as a whole, with no imports of its own, gives all its macros. -/
theorem add_all_of {f : tree.TextFile} {clause : ImportClause} {line : Line} {t : Symbols}
    (hclause : ImportClause.parse line.text.toList = .ok clause) (hall : clause.selection = .all)
    (hf : tree.textFile? (Path.join directory clause.fileName) = some f) (hchain : f.location ∉ chain)
    (hread : readChecked clause.fileName f.text = .ok lines) (himport : ∀ l ∈ lines, l.isImport = false)
    (hdefine : (Block.split lines).1.foldlM Symbols.define {} = .ok t) :
    add tree chain directory {} line = .ok { macros := t.macros } := by
  have hload : load tree (f.location :: chain) {} (originOf clause directory) f.text = .ok (lines, {}) :=
    load_eq_ok_iff.2 ⟨hread, by rw [filter_isImport himport]; rfl⟩
  have hnew : checkNew ∅ (Block.split lines).1 = .ok () := by
    unfold checkNew
    rw [List.find?_eq_none.2 fun b _ => by simp]
  have hcopy : copy t.macros ∅ (Block.split lines).1 = t.macros := by
    refine Std.ExtTreeMap.ext_getElem? fun k => ?_
    rw [getElem?_copy]
    split_ifs with hk
    · rfl
    · have hmem : k ∉ t.macros := by
        rw [Symbols.mem_defineAll hdefine]
        rintro (hk' | hk')
        · simp at hk'
        · exact hk ⟨hk', (Symbols.mem_defineAll hdefine).2 (.inr hk')⟩
      rw [Std.ExtTreeMap.getElem?_eq_none hmem]
      simp
  refine add_eq_ok_iff.2 ⟨clause, f, lines, {}, t, _, ⟨hclause, hf⟩, hchain, hload, ?_, hnew, hdefine, ?_⟩
  · rw [hall]
    rfl
  · rw [hcopy]

/-- One import statement in front of lines without any. -/
theorem check_cons_import {line : Line} {clause : ImportClause} (hline : line.statement = .importing)
    (hclause : ImportClause.parse line.text.toList = .ok clause) (h : ∀ l ∈ lines, l.isImport = false) :
    check (line :: lines) = .ok () := by
  have hstep : ∃ c, Checked.step {} line = .ok c := by
    simp [Checked.step, hline, hclause, ensure, bind, Except.bind, Except.mapError, pure, Except.pure]
  obtain ⟨c, hc⟩ := hstep
  obtain ⟨c', hc'⟩ := exists_foldlM_checked h c
  unfold check
  rw [List.foldlM_cons, hc]
  exact bind_eq_ok.2 ⟨c', hc', rfl⟩

/-- The line that imports the file `lib` as a whole. -/
def ofLibrary (file : String) : Line := ⟨"@import * from lib", 1, file, .importing⟩

theorem parse_ofLibrary (file : String) :
    Statement.parse (ofLibrary file).text.toList = .ok (ofLibrary file).statement := by
  show Statement.parse "@import * from lib".toList = .ok .importing
  decide

theorem clause_ofLibrary (file : String) :
    ImportClause.parse (ofLibrary file).text.toList = .ok ⟨.all, "lib"⟩ := by
  show ImportClause.parse "@import * from lib".toList = .ok ⟨.all, "lib"⟩
  decide

end Import

namespace Block

variable {lines : List Line} {file text : String}

/-- A file with the lines that were moved, and the table that its definitions make. -/
theorem library_of_extract (name : String) {s t : Symbols} (hs : s.macros = ∅)
    (hread : Line.readAll file text = .ok lines) (himport : ∀ l ∈ lines, l.isImport = false)
    (hpaired : check lines = .ok ())
    (hmention : ∀ b ∈ (split lines).1, ∀ x, Line.Mentions b.body x → x ∈ s.labels → x ∈ Line.declared b.body)
    (hdefine : (split lines).1.foldlM Symbols.define s = .ok t) {lib : String}
    (hlib : Source.cleanLines lib = .ok ((extract false lines).2.map Line.text)) :
    ∃ moved t', Import.readChecked name lib = .ok moved ∧ (∀ l ∈ moved, l.isImport = false) ∧
      (split moved).1.foldlM Symbols.define {} = .ok t' ∧ t.macros.Alike t'.macros := by
  have hparse := (extract_forall (fun _ _ => rfl) false (Line.faithful_of_readAll hread)).2
  have hmoved := Line.alike_numbered name 1 (extract false lines).2
  have himport' := hmoved.isImport (extract_forall (fun _ _ => rfl) false himport).2
  have hpaired' := (check_extract (Line.forall₂_numbered name 1 _) hpaired).1
  have hrange := (split_forall Line.InRange.blanked (Line.readAll_inRange hread)).1
  have hempty : s.macros.Alike ({} : Symbols).macros := hs ▸ .empty
  obtain ⟨t', ht', halike, -⟩ := Symbols.defineAll_detached hempty (MacroTable.all_empty _) rfl
    (split_blocks hmoved) hmention hrange hdefine
  exact ⟨_, t', Import.readChecked_eq_ok_iff.2 ⟨Line.readAll_of_cleanLines name hlib hparse,
    Import.check_of_isImport himport', hpaired'⟩, himport', ht', halike⟩

/-- The source that is left, with an import statement in front. -/
theorem source_of_extract (hread : Line.readAll file text = .ok lines) (himport : ∀ l ∈ lines, l.isImport = false)
    (hpaired : check lines = .ok ()) {root : String}
    (hroot : Source.cleanLines root = .ok ("@import * from lib" :: (extract false lines).1.map Line.text)) :
    ∃ program, Import.readChecked file root = .ok (Import.ofLibrary file :: program) ∧
      (∀ l ∈ program, l.isImport = false) ∧ (∀ l ∈ program, l.Plain) ∧
      List.Forall₂ (fun l l' => l.statement = l'.statement ∧ l'.number = l.number + 1)
      (extract false lines).1 program := by
  have hparse := (extract_forall (fun _ _ => rfl) false (Line.faithful_of_readAll hread)).1
  have hnumbers : (extract false lines).1.map Line.number = List.range' 1 (extract false lines).1.length := by
    have hlength := congrArg List.length (numbers_extract false lines)
    rw [List.length_map, List.length_map] at hlength
    rw [numbers_extract, hlength]
    exact Line.numbers_of_readAll hread
  have hkept := Line.alike_numbered file 2 (extract false lines).1
  have himport' := hkept.isImport (extract_forall (fun _ _ => rfl) false himport).1
  have hplain := hkept.plain (check_extract (Line.forall₂_numbered file 1 _) hpaired).2
  have hclean : Source.cleanLines root = .ok ((Import.ofLibrary file :: (extract false lines).1).map Line.text) :=
    hroot
  have hread' := Line.readAll_of_cleanLines file hclean
    (List.forall_mem_cons.2 ⟨Import.parse_ofLibrary file, hparse⟩)
  refine ⟨_, Import.readChecked_eq_ok_iff.2 ⟨hread',
    Import.check_cons_import rfl (Import.clause_ofLibrary file) himport', ?_⟩, himport', hplain,
    Line.forall₂_numbered_succ file hnumbers⟩
  exact check_of_plain (List.forall_mem_cons.2 ⟨⟨nofun, nofun, nofun⟩, hplain⟩)

end Block

namespace Assembly

variable {tree tree' : FileTree} {origin : Origin} {text root : String} {product : Product} {lines : List Line}

/-- The passes over a source without imports. -/
theorem passes_of_isImport (hrun : (run tree origin text).outcome = .ok product)
    (hlines : Line.readAll origin.name text = .ok lines) (himport : ∀ l ∈ lines, l.isImport = false) :
    Block.check lines = .ok () ∧ (Label.register {} (Block.split lines).2 (Block.split lines).1).fault = none ∧
      ∃ s₀ S s, (Block.split lines).1.foldlM Symbols.define
          { labels := LabelTable.declare ∅ (Line.declared (Block.split lines).2) } = .ok s₀ ∧
        s₀.expandAll (Block.split lines).2 = .ok (S, s) ∧ Symbols.Expanding S s [] ∧
          layOut s.labels S = .ok product := by
  obtain ⟨S, s, hstream, hlay⟩ := run_eq_ok hrun
  obtain ⟨p, s₀, hp, hs₀, hexpand⟩ := stream_eq_ok hstream
  obtain ⟨lines', t, hload, hregister, rfl⟩ := prepare_eq_ok hp
  obtain ⟨hchecked, hadd⟩ := Import.load_eq_ok_iff.1 hload
  obtain ⟨hread, -, hpaired⟩ := Import.readChecked_eq_ok_iff.1 hchecked
  obtain rfl : lines' = lines := Except.ok.inj (hread.symm.trans hlines)
  rw [Import.filter_isImport himport] at hadd
  cases hadd
  simp only [(Label.register_eq rfl hregister).2] at hs₀
  exact ⟨hpaired, hregister, s₀, S, s, hs₀, hexpand, stream_expanding hstream, hlay⟩

/-- The source that is left when definitions are moved, once it is loaded. -/
theorem prepare_extracted {s : Symbols} {line : Line} {program : List Line} (hs : s.labels = ∅)
    (hload : Import.load tree (Import.rootChain tree origin) {} origin text = .ok (line :: program, s))
    (hline : line.number = 1 ∧ line.statement = .importing) (hplain : ∀ l ∈ program, l.Plain) {lines₀ : List Line}
    {s₀ : Symbols} {blocks₀ : List Block} (hs₀ : s₀.labels = ∅)
    (hregister : (Label.register s₀ lines₀ blocks₀).fault = none)
    (hprogram : List.Forall₂ (fun l l' => l.statement = l'.statement ∧ l'.number = l.number + 1) lines₀ program) :
      (prepare tree origin text).2 =
        .ok ⟨{ s with labels := LabelTable.declare ∅ (Line.declared lines₀) }, [], line :: program⟩ := by
  have hplains : ∀ l ∈ line :: program, l.Plain :=
    List.forall_mem_cons.2 ⟨⟨by simp [hline.2], by simp [hline.2], by simp [hline.2]⟩, hplain⟩
  have hfault : (Label.register s (line :: program) []).fault = none := by
    have hshift : List.Forall₂ (fun l l' => l.statement = l'.statement ∧
        (l'.number = Label.lastNumber (line :: program) → l.number = Label.lastNumber lines₀)) lines₀ program := by
      rw [Label.lastNumber_cons_shifted hline.1 (hprogram.imp fun _ _ h => h.2)]
      exact hprogram.imp fun l l' h => ⟨h.1, fun he => by have hl := h.2; omega⟩
    unfold Label.register at hregister ⊢
    rw [List.foldl_cons]
    exact Label.foldl_step_alike hshift (by simp [Label.Registration.step, hline.2, hs, hs₀])
      (by simp [Label.Registration.step, hline.2]) hregister
  have hdeclared : Line.declared (line :: program) = Line.declared lines₀ := by
    rw [Line.declared_cons_of_ne program (by simp [hline.2])]
    exact Line.Alike.declared (hprogram.imp fun _ _ h => h.1)
  rw [prepare_of_load hload]
  simp only [Block.split_of_plain hplains, hfault]
  rw [(Label.register_eq hs hfault).2, hdeclared]

/-- **Importing is the same as defining in place.**  The definitions of a source are moved to a file `lib` in its
directory; blank lines are left in their place, and an import statement is put in front.  The product stays,
provided that a label of the program that a definition mentions is a label of the definition, too. -/
theorem run_extract {f : tree'.TextFile} (hrun : (run tree origin text).outcome = .ok product)
    (hlines : Line.readAll origin.name text = .ok lines) (himport : ∀ l ∈ lines, l.isImport = false)
    (hmention : ∀ b ∈ (Block.split lines).1, ∀ x ∈ Line.declared (Block.split lines).2, Line.Mentions b.body x →
      x ∈ Line.declared b.body)
    (hroot : Source.cleanLines root = .ok ("@import * from lib" :: (Block.extract false lines).1.map Line.text))
    (hlib : Source.cleanLines f.text = .ok ((Block.extract false lines).2.map Line.text))
    (hfile : tree'.textFile? (Path.join origin.directory "lib.abcout") = some f)
    (hfresh : f.location ∉ Import.rootChain tree' origin) :
    (run tree' origin root).outcome = .ok product := by
  obtain ⟨hpaired, hregister, s₀, S, s, hs₀, hexpand, hS, hlay⟩ := passes_of_isImport hrun hlines himport
  -- the file that is imported makes the same table
  obtain ⟨moved, t, hreadLib, himportLib, hdefine, halike⟩ := Block.library_of_extract "lib.abcout" rfl
    hlines himport hpaired (fun b hb x hx hmem => by
      rw [LabelTable.mem_declare] at hmem
      exact hmention b hb x (hmem.resolve_left Std.ExtTreeMap.not_mem_empty) hx) hs₀ hlib
  have hadd : Import.add tree' (Import.rootChain tree' origin) origin.directory {} (Import.ofLibrary origin.name) =
      .ok { macros := t.macros } :=
    Import.add_all_of (Import.clause_ofLibrary _) rfl hfile hfresh hreadLib himportLib hdefine
  -- the source that is left has the same labels
  obtain ⟨program, hreadRoot, himportRoot, hplain, hprogram⟩ :=
    Block.source_of_extract hlines himport hpaired hroot
  have hload : Import.load tree' (Import.rootChain tree' origin) {} origin root =
      .ok (Import.ofLibrary origin.name :: program, { macros := t.macros }) := by
    refine Import.load_eq_ok_iff.2 ⟨hreadRoot, ?_⟩
    rw [List.filter_cons_of_pos rfl, Import.filter_isImport himportRoot, List.foldlM_cons, hadd]
    rfl
  rw [← Block.split_program] at hprogram
  have hprepare := prepare_extracted rfl hload ⟨rfl, rfl⟩ hplain rfl hregister hprogram
  -- so both streams say the same
  have hlabels : s₀.labels = LabelTable.declare ∅ (Line.declared (Block.split lines).2) :=
    Symbols.foldlM_define_keeps (P := fun t => t.labels = _)
      (fun _ _ _ ht _ hstep => (Symbols.labels_define hstep).trans ht) rfl hs₀
  have hsymbols : s₀.Alike ⟨LabelTable.declare ∅ (Line.declared (Block.split lines).2), t.macros⟩ :=
    ⟨hlabels.symm, halike⟩
  obtain ⟨S', s', hexpand', hSS', -⟩ := Symbols.expandAll_alike hsymbols (hprogram.imp fun _ _ h => h.1) hexpand
  have hstream : stream tree' origin root = .ok (S', s') := by
    rw [stream_eq]
    exact bind_eq_ok.2 ⟨_, hprepare, bind_eq_ok.2 ⟨_, rfl,
      Symbols.expandAll_cons_eq_ok.2 ⟨[], _, S', rfl, hexpand', rfl⟩⟩⟩
  rw [outcome_run]
  exact bind_eq_ok.2 ⟨(S', s'), hstream, layOut_alike hS (stream_expanding hstream) hSS' hlay⟩

/-- Two definitions around the program.  The second calls the first, which has a label `over` as the program
has. -/
def defining : String :=
  "%macro skip 1\n0, 0, over\n1, 2, %0\nover:\n%endmacro\n" ++
    "start:\ntwice start\n%macro twice 1\nskip %0\nskip 6 ; once more\n%endmacro\nover:\n5, 6, start\n"

/-- The source without its definitions. -/
def importing : String :=
  "@import * from lib\n\n\n\n\n\nstart:\ntwice start\n\n\n\n ; gone\nover:\n5, 6, start\n"

/-- A file with the definitions. -/
def definitions : FileTree := Import.textTree
  [(["lib.abcout"],
    "%macro skip 1\n0, 0, over\n1, 2, %0\nover:\n%endmacro\n%macro twice 1\nskip %0\nskip 6\n%endmacro\n")]

theorem run_extract_defining : ∃ product, (run {} {} defining).outcome = .ok product ∧
    product.program = [⟨0, 0, 12⟩, ⟨1, 2, 0⟩, ⟨0, 0, 24⟩, ⟨1, 2, 6⟩, ⟨5, 6, 0⟩] ∧
    (run definitions {} importing).outcome = .ok product := by
  have hprogram : (run {} {} defining).outcome.toOption.map (·.program) =
      some [⟨0, 0, 12⟩, ⟨1, 2, 0⟩, ⟨0, 0, 24⟩, ⟨1, 2, 6⟩, ⟨5, 6, 0⟩] := by
    rw [outcome_run, stream_eq, prepare_of_load (Import.load_eq _ _ _ _ _)]
    decide +kernel
  obtain ⟨product, hrun, hprogram⟩ := Option.map_eq_some_iff.1 hprogram
  have hlines : ((Line.readAll "[code]" defining).toOption.any fun lines =>
      (definitions.textFile? (Path.join ({} : Origin).directory "lib.abcout")).any fun f =>
        (∀ l ∈ lines, l.isImport = false) ∧
        (∀ b ∈ (Block.split lines).1, ∀ x ∈ Line.declared (Block.split lines).2, Line.Mentions b.body x →
          x ∈ Line.declared b.body) ∧
        (Source.cleanLines importing).toOption =
          some ("@import * from lib" :: (Block.extract false lines).1.map Line.text) ∧
        (Source.cleanLines f.text).toOption = some ((Block.extract false lines).2.map Line.text) ∧
        f.location ∉ Import.rootChain definitions {}) = true := by
    decide +kernel
  obtain ⟨lines, hlines, h⟩ := (Option.any_eq_true _ _).1 hlines
  obtain ⟨f, hf, h⟩ := (Option.any_eq_true _ _).1 h
  obtain ⟨himport, hmention, hroot, hlib, hfresh⟩ := of_decide_eq_true h
  rw [toOption_eq_some] at hrun hlines hroot hlib
  exact ⟨product, hrun, hprogram, run_extract hrun hlines himport hmention hroot hlib hf hfresh⟩

end Assembly

end Abcout
