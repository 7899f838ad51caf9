import Abcout.Import.Load
import Abcout.Proofs.Outcome

/-!
# Abcout.Proofs.Causes — what a file can be refused for on its own

`OnlyFails P x` says that `x` fails with nothing but errors that satisfy `P`; it goes through every construct that
a pass is made of.  Reading the lines of a file, checking them and defining its macros looks at no other file and
writes no image, and so fails with none of the causes that do (`readChecked_ofOneFile`, `define_ofOneFile`).
-/

namespace Abcout

section OnlyFails

variable {ε ε' α β : Type}

/-- Every error of a computation satisfies `P`. -/
def OnlyFails (P : ε → Prop) (x : Except ε α) : Prop := ∀ e, x = .error e → P e

namespace OnlyFails

variable {P : ε → Prop} {x : Except ε α}

theorem ok (a : α) : OnlyFails P (.ok a : Except ε α) := fun _ h => by cases h

theorem pure (a : α) : OnlyFails P (Pure.pure a : Except ε α) := fun _ h => by cases h

theorem error {e : ε} (he : P e) : OnlyFails P (.error e : Except ε α) := fun _ h => by
  cases h
  exact he

theorem ensure {condition : Bool} {e : ε} (he : P e) : OnlyFails P (Abcout.ensure condition e) := by
  unfold Abcout.ensure
  split
  · exact ok ()
  · exact error he

theorem imp {Q : ε → Prop} (hx : OnlyFails P x) (h : ∀ e, P e → Q e) : OnlyFails Q x := fun e he => h e (hx e he)

theorem bind_of_ok {f : α → Except ε β} (hx : OnlyFails P x) (hf : ∀ a, x = .ok a → OnlyFails P (f a)) :
    OnlyFails P (x >>= f) := by
  intro e h
  rcases bind_eq_error.1 h with h | ⟨a, ha, h⟩
  · exact hx e h
  · exact hf a ha e h

theorem bind {f : α → Except ε β} (hx : OnlyFails P x) (hf : ∀ a, OnlyFails P (f a)) : OnlyFails P (x >>= f) :=
  hx.bind_of_ok fun a _ => hf a

theorem map {f : α → β} (hx : OnlyFails P x) : OnlyFails P (f <$> x) := by
  intro e h
  cases x with
  | error e' =>
    cases h
    exact hx e rfl
  | ok a => cases h

theorem mapError {f : ε → ε'} {Q : ε' → Prop} (hx : OnlyFails P x) (hf : ∀ e, P e → Q (f e)) :
    OnlyFails Q (x.mapError f) := by
  intro e h
  obtain ⟨e', he', rfl⟩ := mapError_eq_error.1 h
  exact hf e' (hx e' he')

theorem foldlM {step : β → α → Except ε β} {xs : List α} (hstep : ∀ b, ∀ a ∈ xs, OnlyFails P (step b a)) (b : β) :
    OnlyFails P (xs.foldlM step b) := by
  intro e h
  obtain ⟨before, a, after, b', rfl, -, he⟩ := exists_of_foldlM_eq_error h
  exact hstep b' a (by simp) e he

theorem mapM {f : α → Except ε β} {xs : List α} (hf : ∀ a ∈ xs, OnlyFails P (f a)) : OnlyFails P (xs.mapM f) := by
  induction xs with
  | nil => exact pure []
  | cons a xs ih =>
    rw [List.mapM_cons]
    have hrest := ih fun b hb => hf b (List.mem_cons_of_mem _ hb)
    exact (hf a List.mem_cons_self).bind fun _ => hrest.bind fun _ => pure _

theorem forM {f : α → Except ε Unit} (hf : ∀ a, OnlyFails P (f a)) (xs : List α) : OnlyFails P (xs.forM f) := by
  induction xs with
  | nil => exact pure ()
  | cons a xs ih => exact (hf a).bind fun _ => ih

end OnlyFails

end OnlyFails

/-- Whether a cause is found in one file, without a look at other files or at the image. -/
def Cause.ofOneFile : Cause → Bool
  | fileNotFound _ => false
  | macroNotFound _ => false
  | importCycle _ => false
  | tooManyInstructions => false
  | _ => true

/-- The computation fails only with causes that are found in one file. -/
abbrev Plain {α : Type} (x : Except Cause α) : Prop := OnlyFails (fun c => c.ofOneFile = true) x

/-- The same at a place. -/
abbrev PlainAt {α : Type} (x : Except Fault α) : Prop := OnlyFails (fun f => f.cause.ofOneFile = true) x

theorem Plain.at_line {α : Type} {x : Except Cause α} (h : Plain x) (line : Line) :
    PlainAt (x.mapError line.fault) :=
  h.mapError fun _ hc => hc

/-! ## Reading lines -/

theorem Source.clean_plain (s : List Char) : Plain (Source.clean s) := by
  refine OnlyFails.bind (OnlyFails.map (OnlyFails.mapM fun chunk _ => ?_)) fun _ => .pure _
  cases chunk with
  | word w =>
    show Plain (Source.decimalWord w)
    unfold Source.decimalWord
    split
    · simp only
      split_ifs
      · exact .error rfl
      · exact .ok _
      · exact .error rfl
    · exact .ok _
  | delimiter c => exact .ok _

namespace Operand

theorem ofNat_plain (n : Nat) : Plain (ofNat n) := by
  unfold ofNat
  split
  · exact .ok _
  · exact .error rfl

theorem parseNumber_plain (s : List Char) : Plain (parseNumber s) := by
  unfold parseNumber
  split_ifs
  · split
    · unfold ofDecimal
      split
      · exact ofNat_plain _
      · exact .error rfl
    · exact .ok _
  · exact ofNat_plain _
  · exact .ok _

theorem parseField_plain (s : List Char) : Plain (parseField s) := by
  unfold parseField
  simp only
  split_ifs
  · exact .error rfl
  · unfold parse
    split
    · split
      · exact .ok _
      · exact .error rfl
    · split_ifs
      · exact .error rfl
      · exact .ok _
    · split_ifs
      · exact parseNumber_plain _
      · exact .ok _

theorem parseList_plain (s : List Char) : Plain (parseList s) := by
  unfold parseList
  split
  · exact .ok _
  · exact .mapM fun field _ => parseField_plain field

end Operand

theorem Statement.parse_plain (text : List Char) : Plain (Statement.parse text) := by
  unfold Statement.parse
  split_ifs
  · exact .ok _
  · exact .ok _
  · split
    · exact .ok _
    · unfold parsePercent
      split_ifs
      · exact .ok _
      · exact .ok _
      · exact .map (Operand.parseList_plain _)
      · exact .ok _
    · unfold parseCode
      simp only
      split_ifs
      · exact .map (Operand.parseList_plain _)
      · exact .map (Operand.parseList_plain _)

theorem ImportClause.parse_plain (text : List Char) : Plain (ImportClause.parse text) := by
  unfold ImportClause.parse
  split
  · exact .error rfl
  · unfold parseWords
    split
    · refine .bind (.ensure rfl) fun _ => ?_
      split
      · exact .bind (.ensure rfl) fun _ => .bind (.ensure rfl) fun _ => .bind (.ensure rfl) fun _ =>
          .bind (.ensure rfl) fun _ => .pure _
      · exact .error rfl
    · exact .error rfl

theorem Line.readAll_plain (file text : String) : PlainAt (Line.readAll file text) := by
  refine .mapM fun x _ => ?_
  refine OnlyFails.mapError (P := fun c : Cause => c.ofOneFile = true) ?_ fun _ hc => hc
  exact .bind (Source.clean_plain _) fun _ => .bind (Statement.parse_plain _) fun _ => .pure _

/-! ## Checking lines -/

theorem Import.check_plain (lines : List Line) : PlainAt (Import.check lines) := by
  refine .bind (.foldlM (fun c line _ => ?_) _) fun _ => .pure _
  unfold Import.Checked.step
  split
  · exact .ok _
  · exact .ok _
  · exact .bind (.ensure rfl) fun _ => .bind (.ensure rfl) fun _ =>
      .bind ((ImportClause.parse_plain _).at_line line) fun _ => .pure _
  · exact .ok _

theorem Block.check_plain (lines : List Line) : PlainAt (Block.check lines) := by
  refine .bind (.foldlM (fun p line _ => ?_) _) fun p => ?_
  · unfold Block.Pairing.step
    split
    · split_ifs
      · exact .error rfl
      · exact .ok _
    · split
      · exact .error rfl
      · exact .ok _
    · exact .error rfl
    · exact .ok _
  · split
    · exact .error rfl
    · exact .error rfl
    · exact .ok _

/-- **A file that is read and checked** is refused for what stands in it. -/
theorem Import.readChecked_ofOneFile (file text : String) : PlainAt (Import.readChecked file text) :=
  .bind (Line.readAll_plain file text) fun lines => .bind (Import.check_plain lines) fun _ =>
    .bind (Block.check_plain lines) fun _ => .pure _

/-! ## Definitions -/

/-- Whether a cause is found in the operands of an instruction or a call. -/
def Cause.ofOperands : Cause → Bool
  | macroUndefined _ => true
  | paramOutOfRange => true
  | paramOutsideMacro => true
  | expansionInvalid => true
  | labelUndefined _ => true
  | operandCount _ => true
  | operandInvalid _ => true
  | _ => false

theorem Cause.ofOneFile_of_ofOperands {c : Cause} (h : c.ofOperands = true) : c.ofOneFile = true := by
  revert h
  cases c <;> simp [ofOperands, ofOneFile]

/-- The computation fails only for operands. -/
abbrev OfOperands {α : Type} (x : Except Cause α) : Prop := OnlyFails (fun c => c.ofOperands = true) x

/-- The same at a place. -/
abbrev OfOperandsAt {α : Type} (x : Except Fault α) : Prop := OnlyFails (fun f => f.cause.ofOperands = true) x

theorem OfOperands.at_line {α : Type} {x : Except Cause α} (h : OfOperands x) (line : Line) :
    OfOperandsAt (x.mapError line.fault) :=
  h.mapError fun _ hc => hc

namespace Scope

variable (scope : Scope)

theorem checkParam_ofOperands (op : Operand) : OfOperands (scope.checkParam op) := by
  unfold checkParam
  split
  · split
    · exact .error rfl
    · exact .ensure rfl
  · exact .ok _

theorem checkValue_ofOperands (slot : Slot) (op : Operand) : OfOperands (checkValue slot op) := by
  unfold checkValue
  split
  · exact .error rfl
  · exact .ok _

theorem checkInstruction_ofOperands (labels : LabelTable) (ops : List Operand) :
    OfOperands (scope.checkInstruction labels ops) := by
  refine .bind (.forM scope.checkParam_ofOperands ops) fun _ => ?_
  split
  · exact .bind (checkValue_ofOperands _ _) fun _ => checkValue_ofOperands _ _
  · refine .bind (checkValue_ofOperands _ _) fun _ => .bind (checkValue_ofOperands _ _) fun _ => ?_
    unfold checkTarget
    split
    · exact .ensure rfl
    · exact .ensure rfl
    · exact .ok _
  · exact .error rfl

theorem checkCall_ofOperands (symbols : Symbols) (name : String) (args : List Operand) :
    OfOperands (scope.checkCall symbols name args) := by
  refine .bind (.ensure rfl) fun _ => .bind (.forM (fun arg => ?_) args) fun _ => ?_
  · refine .bind (scope.checkParam_ofOperands arg) fun _ => ?_
    split
    · exact .ensure rfl
    · exact .ok _
  · split
    · exact .error rfl
    · exact .ensure rfl

end Scope

theorem Symbols.expand_ofOperands (s : Symbols) (scope : Scope) (site : Line) (name : String)
    (args : List Operand) : OfOperandsAt (s.expand scope site name args) := by
  unfold Symbols.expand
  split
  · exact .error rfl
  · simp only
    split_ifs
    · exact .ok _
    · exact .error rfl

namespace Block.Draft

variable (b : Block) (params : Nat) (d : Draft) {line : Line}

theorem step_instruction_ofOperands {ops : List Operand} (hl : line.statement = .instruction ops) :
    OfOperandsAt (d.step b params line) := by
  unfold step
  simp only [hl]
  exact .bind ((Scope.checkInstruction_ofOperands _ _ _).at_line line) fun _ => .pure _

theorem step_call_ofOperands {name : String} {args : List Operand} (hl : line.statement = .call name args) :
    OfOperandsAt (d.step b params line) := by
  unfold step
  simp only [hl]
  exact .bind ((Scope.checkCall_ofOperands _ _ _ _).at_line line) fun _ =>
    .bind (Symbols.expand_ofOperands _ _ line _ _) fun _ => .pure _

theorem step_plain (line : Line) : PlainAt (d.step b params line) := by
  cases hl : line.statement with
  | instruction ops => exact (step_instruction_ofOperands b params d hl).imp fun _ => Cause.ofOneFile_of_ofOperands
  | call name args => exact (step_call_ofOperands b params d hl).imp fun _ => Cause.ofOneFile_of_ofOperands
  | blank =>
    simp only [step, hl]
    exact .ok _
  | label name =>
    simp only [step, hl]
    exact .ok _
  | _ =>
    simp only [step, hl]
    exact .error rfl

end Block.Draft

theorem Block.addLocal_plain (locals : NameSet) (line : Line) : PlainAt (Block.addLocal locals line) := by
  unfold Block.addLocal
  split
  · exact .bind (.ensure rfl) fun _ => .bind (.ensure rfl) fun _ => .bind (.ensure rfl) fun _ => .pure _
  · exact .ok _

/-- **A definition** is refused for what stands in it. -/
theorem Symbols.define_ofOneFile (s : Symbols) (b : Block) : PlainAt (s.define b) := by
  unfold Symbols.define
  refine .bind ?_ fun _ => .bind ?_ fun params => .bind ?_ fun _ => .bind
    (.foldlM (fun locals line _ => Block.addLocal_plain locals line) _) fun locals =>
    .bind (.foldlM (fun d line _ => Block.Draft.step_plain b params d line) _) fun d => .pure _
  · exact .bind (.ensure rfl) fun _ => .bind (.ensure rfl) fun _ => .ensure rfl
  · unfold Block.paramCount
    split
    · exact .ok _
    · exact .error rfl
  · unfold Block.checkCalls
    split
    · exact .error rfl
    · exact .ok _

end Abcout
