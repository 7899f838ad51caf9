import Abcout.Label.Registration
import Abcout.Proofs.Macros
import Abcout.Proofs.Table

/-!
# Abcout.Proofs.Expansion — the stream that a program stands for

* `Executable`: what the checks of a program instruction amount to; two numbers, and then nothing, an address or a
  known label (`checkInstruction_program`).
* `Label.register_eq`: registering labels declares them all, and they are all different.
* `Symbols.Expanding`: the `Progress` of a program.  Its instructions are executable, and the labels of the table
  are the declared ones, none with an address.
* `Symbols.expandAll_append_eq_ok`: the lines of a program are expanded one behind the other.
-/

namespace Abcout

/-! ## Operands of a program instruction -/

/-- Operands of an instruction of the program. -/
inductive Executable (labels : LabelTable) : List Operand → Prop
  | next (a b : UInt16) : Executable labels [.number a, .number b]
  | address (a b c : UInt16) (h : c.toNat % 6 = 0) : Executable labels [.number a, .number b, .number c]
  | label (a b : UInt16) (name : String) (h : name ∈ labels) :
      Executable labels [.number a, .number b, .label name]

theorem Executable.mono {labels labels' : LabelTable} (hsub : ∀ x, x ∈ labels → x ∈ labels') {ops : List Operand}
    (h : Executable labels ops) : Executable labels' ops := by
  cases h with
  | next a b => exact .next a b
  | address a b c hc => exact .address a b c hc
  | label a b name hn => exact .label a b name (hsub name hn)

namespace Scope

/-- A value that stands outside of a definition is a number. -/
theorem eq_number_of_checks {slot : Slot} {op : Operand} (hp : program.checkParam op = .ok ())
    (hv : checkValue slot op = .ok ()) : ∃ n, op = .number n := by
  cases op with
  | number n => exact ⟨n, rfl⟩
  | label name => cases hv
  | param i => cases hp

theorem checkInstruction_program {labels : LabelTable} {ops : List Operand} :
    program.checkInstruction labels ops = .ok () ↔ Executable labels ops := by
  unfold checkInstruction
  rw [bind_eq_ok]
  constructor
  · rintro ⟨⟨⟩, hparams, h⟩
    rw [forM_eq_ok] at hparams
    split at h
    · rename_i a b
      obtain ⟨⟨⟩, ha, hb⟩ := bind_eq_ok.1 h
      obtain ⟨a, rfl⟩ := eq_number_of_checks (hparams _ (by simp)) ha
      obtain ⟨b, rfl⟩ := eq_number_of_checks (hparams _ (by simp)) hb
      exact .next a b
    · rename_i a b c
      obtain ⟨⟨⟩, ha, h⟩ := bind_eq_ok.1 h
      obtain ⟨⟨⟩, hb, hc⟩ := bind_eq_ok.1 h
      obtain ⟨a, rfl⟩ := eq_number_of_checks (hparams _ (by simp)) ha
      obtain ⟨b, rfl⟩ := eq_number_of_checks (hparams _ (by simp)) hb
      cases c with
      | number c => exact .address a b c (by simpa [checkTarget] using hc)
      | label name =>
        refine .label a b name ?_
        rw [Std.ExtTreeMap.mem_iff_contains]
        simpa [checkTarget, knows] using hc
      | param i =>
        have := hparams (.param i) (by simp)
        cases this
    · cases h
  · intro h
    refine ⟨(), forM_eq_ok.2 ?_, ?_⟩
    · intro op hop
      cases op with
      | number n => rfl
      | label name => rfl
      | param i => cases h <;> simp at hop
    · cases h with
      | next a b => rfl
      | address a b c hc => simp [checkValue, checkTarget, bind, Except.bind, hc]
      | label a b name hn =>
        rw [Std.ExtTreeMap.mem_iff_contains] at hn
        simp [checkValue, checkTarget, knows, bind, Except.bind, hn]

theorem accepts_iff {scope : Scope} {labels : LabelTable} {line : Line} : scope.accepts labels line = true ↔
    ∀ ops, line.statement = .instruction ops → scope.checkInstruction labels ops = .ok () := by
  unfold accepts
  cases line.statement with
  | instruction ops =>
    simp only [Statement.instruction.injEq, forall_eq']
    cases scope.checkInstruction labels ops with
    | error e => simp [Except.isOk, Except.toBool]
    | ok u => simp [Except.isOk, Except.toBool]
  | _ => simp

theorem checkInstruction_of_accepts {scope : Scope} {labels : LabelTable} {line : Line} {ops : List Operand}
    (hl : line.statement = .instruction ops) (h : scope.accepts labels line = true) :
    scope.checkInstruction labels ops = .ok () :=
  accepts_iff.1 h ops hl

end Scope

/-! ## Declared labels -/

namespace Label

theorem of_refusal?_eq_none {last : Nat} {labels : LabelTable} {line : Line} {name : String}
    (h : refusal? last labels line name = none) :
    name ∉ labels ∧ ¬ Reserved name ∧ isIdentifier name.toList = true := by
  unfold refusal? at h
  split_ifs at h with hinitial _ _ hidentifier hc
  exact ⟨fun hmem => hc (Std.ExtTreeMap.contains_iff_mem.2 hmem), hinitial, by simpa using hidentifier⟩

/-- As long as no label is refused, registering the labels of lines declares them; they are new and all different,
and have names that may be written. -/
theorem foldl_step_eq {last : Nat} {isMacro : String → Bool} {lines : List Line} {r : Registration}
    (h : (lines.foldl (Registration.step last isMacro) r).fault = none) :
    r.fault = none ∧ (Line.declared lines).Nodup ∧
      (∀ x ∈ Line.declared lines, x ∉ r.labels ∧ ¬ Reserved x ∧ isIdentifier x.toList = true) ∧
      (lines.foldl (Registration.step last isMacro) r).labels = r.labels.declare (Line.declared lines) := by
  induction lines generalizing r with
  | nil => exact ⟨h, List.nodup_nil, List.forall_mem_nil _, rfl⟩
  | cons line rest ih =>
    rw [List.foldl_cons] at h ⊢
    obtain ⟨hfault, hnd, hnew, heq⟩ := ih h
    rw [heq]
    unfold Registration.step at hfault hnew ⊢
    split at hfault
    · rename_i name hr hl
      cases hc : refusal? last r.labels line name with
      | some cause =>
        simp only [hc] at hfault
        cases hfault
      | none =>
        simp only [hr, hl, hc] at hnew ⊢
        rw [Line.declared_cons_label rest hl]
        refine ⟨trivial, List.nodup_cons.2 ⟨fun hx => ?_, hnd⟩, ?_, rfl⟩
        · exact (hnew name hx).1 (mem_insert_name.2 (.inl rfl))
        · intro x hx
          rcases List.mem_cons.1 hx with rfl | hx
          · exact of_refusal?_eq_none hc
          · exact ⟨fun hmem => (hnew x hx).1 (mem_insert_name.2 (.inr hmem)), (hnew x hx).2⟩
    · rename_i hother
      have hl : ∀ name, line.statement ≠ .label name := fun name => hother name hfault
      rw [Line.declared_cons_of_ne rest hl]
      split at hnew
      · rename_i name _ hname
        exact absurd hname (hl name)
      · exact ⟨hfault, hnd, hnew, rfl⟩

/-- **Registration**: when no label is refused, the labels of the program are all different, and they are
declared. -/
theorem register_eq {s : Symbols} {program : List Line} {blocks : List Block} (hs : s.labels = ∅)
    (h : (register s program blocks).fault = none) :
    (Line.declared program).Nodup ∧
      (register s program blocks).labels = LabelTable.declare ∅ (Line.declared program) := by
  obtain ⟨-, hnd, -, heq⟩ := foldl_step_eq h
  exact ⟨hnd, by rw [← hs]; exact heq⟩

/-- The labels of a program have names that may be written, and none that is reserved. -/
theorem name_of_register {s : Symbols} {program : List Line} {blocks : List Block}
    (h : (register s program blocks).fault = none) {x : String} (hx : x ∈ Line.declared program) :
    ¬ Reserved x ∧ isIdentifier x.toList = true := by
  obtain ⟨-, -, hnew, -⟩ := foldl_step_eq h
  exact (hnew x hx).2

end Label

/-! ## Expansion of a program -/

namespace Symbols

/-- **All that a line of the program does.** -/
theorem expandLine_eq_ok {s s' : Symbols} {line : Line} {lines : List Line}
    (h : s.expandLine line = .ok (lines, s')) :
    ((line.statement = .blank ∨ line.statement = .importing) ∧ lines = [] ∧ s' = s) ∨
      ((∃ name, line.statement = .label name) ∧ lines = [line] ∧ s' = s) ∨
      (∃ ops, line.statement = .instruction ops ∧ Executable s.labels ops ∧ lines = [line] ∧ s' = s) ∨
      ∃ name args, line.statement = .call name args ∧ s.expand .program line name args = .ok (lines, s') := by
  unfold expandLine at h
  split at h
  · rename_i hl
    cases h
    exact .inl ⟨.inl hl, rfl, rfl⟩
  · rename_i hl
    cases h
    exact .inl ⟨.inr hl, rfl, rfl⟩
  · rename_i name hl
    cases h
    exact .inr (.inl ⟨⟨name, hl⟩, rfl, rfl⟩)
  · rename_i ops hl
    obtain ⟨⟨⟩, hcheck, h⟩ := bind_eq_ok.1 h
    rw [mapError_eq_ok, Scope.checkInstruction_program] at hcheck
    cases pure_eq_ok.1 h
    exact .inr (.inr (.inl ⟨ops, hl, hcheck, rfl, rfl⟩))
  · rename_i name args hl
    obtain ⟨-, -, h⟩ := bind_eq_ok.1 h
    exact .inr (.inr (.inr ⟨name, args, hl, h⟩))
  · cases h
  · cases h
  · cases h

/-- An executable instruction stands for itself. -/
theorem expandLine_instruction {s s' : Symbols} {line : Line} {ops : List Operand} {lines : List Line}
    (hl : line.statement = .instruction ops) :
    s.expandLine line = .ok (lines, s') ↔ Executable s.labels ops ∧ lines = [line] ∧ s' = s := by
  unfold expandLine
  rw [← Scope.checkInstruction_program]
  simp only [hl, bind_eq_ok, mapError_eq_ok, pure_eq_ok, Prod.mk.injEq]
  constructor
  · rintro ⟨⟨⟩, hx, rfl, rfl⟩
    exact ⟨hx, rfl, rfl⟩
  · rintro ⟨hx, rfl, rfl⟩
    exact ⟨(), hx, rfl, rfl⟩

/-- A call stands for the instantiated body of its macro. -/
theorem expandLine_call {s s' : Symbols} {line : Line} {name : String} {args : List Operand} {lines : List Line}
    (hl : line.statement = .call name args) (h : s.expandLine line = .ok (lines, s')) :
    ∃ m, s.macros[name]? = some m ∧
      lines = m.instantiate args (Scope.program.freshNames s.labels name m) line := by
  rcases expandLine_eq_ok h with ⟨hl' | hl', -⟩ | ⟨⟨name', hl'⟩, -⟩ | ⟨ops, hl', -⟩ | ⟨name', args', hl', he⟩
  -- the line is a call, so the other four kinds are out
  all_goals
    rw [hl] at hl'
    cases hl'
  · obtain ⟨m, hm, hlines, -, -⟩ := expand_eq_ok_iff.1 he
    exact ⟨m, hm, hlines⟩

/-- A program that is expanded up to the lines `rest`: the lines `done` stand for the others. -/
structure Expanding (done : List Line) (s : Symbols) (rest : List Line) : Prop extends
    Progress s.macros (· ∈ s.labels) done rest where
  executable : ∀ ops ∈ Line.instructions done, Executable s.labels ops
  unassigned : s.labels.Unassigned

namespace Expanding

variable {done lines rest : List Line} {s s' : Symbols} {line : Line}

theorem mem_labels (h : Expanding done s rest) {x : String} :
    x ∈ s.labels ↔ x ∈ Line.declared done ++ Line.declared rest := h.mem_known x

/-- A label or an instruction stays as it stands. -/
theorem keep (h : Expanding done s (line :: rest)) (hl : line.IsCode)
    (hx : ∀ ops, line.statement = .instruction ops → Executable s.labels ops) :
    Expanding (done ++ [line]) s rest := by
  refine ⟨h.toProgress.keep hl, ?_, h.unassigned⟩
  rw [Line.instructions_append, List.forall_mem_append]
  refine ⟨h.executable, fun ops hops => ?_⟩
  obtain ⟨l, hmem, hstmt⟩ := Line.exists_of_mem_instructions hops
  rw [List.mem_singleton.1 hmem] at hstmt
  exact hx ops hstmt

/-- A call brings labels that the program did not have. -/
theorem call {name : String} {args : List Operand} (h : Expanding done s (line :: rest))
    (hl : line.statement = .call name args) (he : s.expand .program line name args = .ok (lines, s')) :
    Expanding (done ++ lines) s' rest := by
  have hcall := h.toProgress.call hl he fun x hx => not_mem_of_contains hx
  obtain ⟨m, -, -, haccept, rfl⟩ := expand_eq_ok_iff.1 he
  refine ⟨hcall.congr fun x => LabelTable.mem_declare, ?_, h.unassigned.declare _⟩
  rw [Line.instructions_append, List.forall_mem_append]
  refine ⟨fun ops hops => (h.executable ops hops).mono fun x hx => LabelTable.mem_declare.2 (.inl hx), ?_⟩
  intro ops hops
  obtain ⟨l, hmem, hstmt⟩ := Line.exists_of_mem_instructions hops
  exact Scope.checkInstruction_program.1 (Scope.checkInstruction_of_accepts hstmt (haccept l hmem))

/-- **Step**: one more line of the program. -/
theorem step (h : Expanding done s (line :: rest)) (he : s.expandLine line = .ok (lines, s')) :
    Expanding (done ++ lines) s' rest := by
  rcases expandLine_eq_ok he with ⟨hl, rfl, rfl⟩ | ⟨⟨name, hl⟩, rfl, rfl⟩ | ⟨ops, hl, hx, rfl, rfl⟩ |
    ⟨name, args, hl, he⟩
  · rw [List.append_nil]
    exact ⟨h.toProgress.skip (by rcases hl with hl | hl <;> simp [hl]), h.executable, h.unassigned⟩
  · exact h.keep (.inl ⟨name, hl⟩) (by simp [hl])
  · refine h.keep (.inr ⟨ops, hl⟩) ?_
    intro ops' hl'
    rw [hl] at hl'
    cases hl'
    exact hx
  · exact h.call hl he

end Expanding

/-! ## Runs -/

/-- Lines that are there already stay in front. -/
theorem foldlM_expandAfter (program : List Line) (done : Array Line) (s : Symbols) :
    program.foldlM expandAfter (done, s) = (fun r : List Line × Symbols => (done ++ r.1.toArray, r.2)) <$>
      s.expandAll program := by
  induction program generalizing done s with
  | nil => simp [expandAll, pure, Except.pure, bind, Except.bind, Functor.map, Except.map]
  | cons line rest ih =>
    unfold expandAll
    rw [List.foldlM_cons, List.foldlM_cons]
    cases hl : s.expandLine line with
    | error e => simp [expandAfter, hl, bind, Except.bind, Functor.map, Except.map]
    | ok r =>
      obtain ⟨lines, s₁⟩ := r
      have hafter : ∀ d : Array Line, expandAfter (d, s) line = .ok (d ++ lines, s₁) := by
        intro d
        simp [expandAfter, hl, bind, Except.bind, pure, Except.pure]
      rw [hafter, hafter]
      simp only [bind, Except.bind]
      rw [ih, ih]
      cases s₁.expandAll rest with
      | error e => rfl
      | ok r =>
        simp only [Functor.map, Except.map, pure, Except.pure, Except.ok.injEq, Prod.mk.injEq, and_true]
        apply Array.toList_inj.1
        simp

theorem expandAll_cons_eq_ok {s s' : Symbols} {line : Line} {rest lines : List Line} :
    s.expandAll (line :: rest) = .ok (lines, s') ↔ ∃ now s₁ later, s.expandLine line = .ok (now, s₁) ∧
      s₁.expandAll rest = .ok (later, s') ∧ lines = now ++ later := by
  unfold expandAll
  rw [List.foldlM_cons]
  cases hl : s.expandLine line with
  | error e => simp [expandAfter, hl, bind, Except.bind]
  | ok r =>
    obtain ⟨now, s₁⟩ := r
    have hafter : expandAfter (#[], s) line = .ok (now.toArray, s₁) := by
      simp [expandAfter, hl, bind, Except.bind, pure, Except.pure]
    rw [hafter]
    show (List.foldlM expandAfter (now.toArray, s₁) rest >>= _) = _ ↔ _
    rw [foldlM_expandAfter]
    constructor
    · intro h
      obtain ⟨r, hr, h⟩ := bind_eq_ok.1 h
      obtain ⟨⟨later, s₂⟩, hlater, rfl⟩ := map_eq_ok.1 hr
      cases pure_eq_ok.1 h
      exact ⟨now, s₁, later, rfl, hlater, by simp⟩
    · rintro ⟨now', s₁', later, hnow, hlater, rfl⟩
      cases hnow
      rw [bind_eq_ok]
      exact ⟨_, map_eq_ok.2 ⟨_, hlater, rfl⟩, by simp [pure, Except.pure]⟩

/-- **A program is expanded in parts**, the second part with the symbols that the first leaves. -/
theorem expandAll_append_eq_ok {s s' : Symbols} {before after lines : List Line} :
    s.expandAll (before ++ after) = .ok (lines, s') ↔ ∃ done s₁ later, s.expandAll before = .ok (done, s₁) ∧
      s₁.expandAll after = .ok (later, s') ∧ lines = done ++ later := by
  induction before generalizing s lines with
  | nil =>
    constructor
    · intro h
      exact ⟨[], s, lines, rfl, h, rfl⟩
    · rintro ⟨done, s₁, later, hdone, hlater, rfl⟩
      cases hdone
      exact hlater
  | cons line rest ih =>
    rw [List.cons_append, expandAll_cons_eq_ok]
    constructor
    · rintro ⟨now, s₁, later, hnow, hlater, rfl⟩
      obtain ⟨done, s₂, later', hdone, hlater', rfl⟩ := ih.1 hlater
      exact ⟨now ++ done, s₂, later', expandAll_cons_eq_ok.2 ⟨now, s₁, done, hnow, hdone, rfl⟩, hlater',
        (List.append_assoc _ _ _).symm⟩
    · rintro ⟨done, s₂, later', hdone, hlater', rfl⟩
      obtain ⟨now, s₁, done', hnow, hdone', rfl⟩ := expandAll_cons_eq_ok.1 hdone
      exact ⟨now, s₁, done' ++ later', hnow, ih.2 ⟨done', s₂, later', hdone', hlater', rfl⟩,
        List.append_assoc _ _ _⟩

/-- A line of the program changes no record but for counters, and loses no label. -/
theorem expandLine_keeps {s s' : Symbols} {line : Line} {lines : List Line}
    (h : s.expandLine line = .ok (lines, s')) : s.macros.SameCode s'.macros ∧ ∀ x ∈ s.labels, x ∈ s'.labels := by
  rcases expandLine_eq_ok h with ⟨-, -, rfl⟩ | ⟨-, -, rfl⟩ | ⟨ops, -, -, -, rfl⟩ | ⟨name, args, -, he⟩
  · exact ⟨.refl _, fun _ hx => hx⟩
  · exact ⟨.refl _, fun _ hx => hx⟩
  · exact ⟨.refl _, fun _ hx => hx⟩
  · obtain ⟨m, -, -, -, rfl⟩ := expand_eq_ok_iff.1 he
    exact ⟨Scope.sameCode_countCall _ _ _ _, fun x hx => LabelTable.mem_declare.2 (.inl hx)⟩

theorem expandAll_keeps {s s' : Symbols} {program lines : List Line} (h : s.expandAll program = .ok (lines, s')) :
    s.macros.SameCode s'.macros ∧ ∀ x ∈ s.labels, x ∈ s'.labels := by
  induction program generalizing s lines with
  | nil =>
    cases h
    exact ⟨.refl _, fun _ hx => hx⟩
  | cons line rest ih =>
    obtain ⟨now, s₁, later, hnow, hlater, -⟩ := expandAll_cons_eq_ok.1 h
    obtain ⟨hcode, hlabels⟩ := expandLine_keeps hnow
    obtain ⟨hcode', hlabels'⟩ := ih hlater
    exact ⟨hcode.trans hcode', fun x hx => hlabels' x (hlabels x hx)⟩

/-- **Run**: expanding some lines keeps the invariant. -/
theorem Expanding.expandAll {done program rest lines : List Line} {s s' : Symbols}
    (h : Expanding done s (program ++ rest)) (he : s.expandAll program = .ok (lines, s')) :
    Expanding (done ++ lines) s' rest := by
  induction program generalizing done s lines with
  | nil =>
    cases he
    rw [List.append_nil]
    exact h
  | cons line program ih =>
    obtain ⟨now, s₁, later, hnow, hlater, rfl⟩ := expandAll_cons_eq_ok.1 he
    rw [← List.append_assoc]
    exact ih (h.step hnow) hlater

end Symbols

end Abcout
