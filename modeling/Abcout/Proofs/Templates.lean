import Abcout.Proofs.Expansion

/-!
# Abcout.Proofs.Templates — the instructions of a stored macro

* `Template`: what the checks of an instruction in a definition amount to (`checkInstruction_definition`): two
  values, and then nothing, an address, a parameter or a known label.
* `Macro.Proper`: a well-formed record whose instructions are such templates.  Its labels are local, or `free`.
* `Symbols.define_proper`: a definition adds one such record.  The labels of the program are free in it, and no
  others.
-/

namespace Abcout

/-! ## Operands of an instruction in a definition -/

/-- A value in a definition with `params` parameters. -/
inductive Operand.IsValue (params : Nat) : Operand → Prop
  | number (n : UInt16) : IsValue params (.number n)
  | param (i : Nat) (h : i < params) : IsValue params (.param i)

/-- A branch target in a definition with `params` parameters, where some labels are known. -/
inductive Operand.IsTarget (params : Nat) (known : String → Prop) : Operand → Prop
  | address (n : UInt16) (h : n.toNat % 6 = 0) : IsTarget params known (.number n)
  | param (i : Nat) (h : i < params) : IsTarget params known (.param i)
  | label (name : String) (h : known name) : IsTarget params known (.label name)

/-- Operands of an instruction in a definition. -/
inductive Template (params : Nat) (known : String → Prop) : List Operand → Prop
  | next {a b : Operand} (ha : a.IsValue params) (hb : b.IsValue params) : Template params known [a, b]
  | target {a b c : Operand} (ha : a.IsValue params) (hb : b.IsValue params) (hc : c.IsTarget params known) :
      Template params known [a, b, c]

theorem Template.imp {params : Nat} {known known' : String → Prop} {ops : List Operand}
    (h : Template params known ops) (himp : ∀ x, .label x ∈ ops → known x → known' x) :
    Template params known' ops := by
  cases h with
  | next ha hb => exact .next ha hb
  | target ha hb hc =>
    refine .target ha hb ?_
    cases hc with
    | address n hn => exact .address n hn
    | param i hi => exact .param i hi
    | label name hname => exact .label name (himp name (by simp) hname)

theorem Template.mono {params : Nat} {known known' : String → Prop} (hsub : ∀ x, known x → known' x)
    {ops : List Operand} (h : Template params known ops) : Template params known' ops :=
  h.imp fun x _ => hsub x

theorem Template.known_of_mem {params : Nat} {known : String → Prop} {ops : List Operand}
    (h : Template params known ops) {x : String} (hx : .label x ∈ ops) : known x := by
  have hvalue : ¬ Operand.IsValue params (.label x) := nofun
  cases h with
  | next ha hb =>
    rcases List.mem_pair.1 hx with rfl | rfl
    · exact absurd ha hvalue
    · exact absurd hb hvalue
  | target ha hb hc =>
    rcases List.mem_cons.1 hx with rfl | hx
    · exact absurd ha hvalue
    · rcases List.mem_pair.1 hx with rfl | rfl
      · exact absurd hb hvalue
      · cases hc with
        | label _ hknown => exact hknown

theorem Template.lt_of_mem {params : Nat} {known : String → Prop} {ops : List Operand}
    (h : Template params known ops) {i : Nat} (hi : .param i ∈ ops) : i < params := by
  have hvalue : Operand.IsValue params (.param i) → i < params := fun | .param _ hlt => hlt
  cases h with
  | next ha hb =>
    rcases List.mem_pair.1 hi with rfl | rfl
    · exact hvalue ha
    · exact hvalue hb
  | target ha hb hc =>
    rcases List.mem_cons.1 hi with rfl | hi
    · exact hvalue ha
    · rcases List.mem_pair.1 hi with rfl | rfl
      · exact hvalue hb
      · cases hc with
        | param _ hlt => exact hlt

namespace Scope

variable {params : Nat} {locals : NameSet} {labels : LabelTable} {op : Operand}

theorem isValue_iff (locals : NameSet) (slot : Slot) : op.IsValue params ↔
    (definition params locals).checkParam op = .ok () ∧ checkValue slot op = .ok () := by
  constructor
  · intro h
    cases h with
    | number n => exact ⟨rfl, rfl⟩
    | param i hi => exact ⟨ensure_eq_ok_iff.2 (decide_eq_true hi), rfl⟩
  · rintro ⟨hp, hv⟩
    cases op with
    | number n => exact .number n
    | label name => cases hv
    | param i => exact .param i (of_decide_eq_true (ensure_eq_ok_iff.1 hp))

theorem knows_definition {name : String} :
    (definition params locals).knows labels name = true ↔ name ∈ locals ∨ name ∈ labels := by
  rw [knows, Bool.or_eq_true, Std.ExtTreeMap.contains_iff_mem, Std.ExtTreeSet.contains_iff_mem, or_comm]

theorem knows_program {x : String} : program.knows labels x = true ↔ x ∈ labels := by
  rw [knows, Bool.or_false, Std.ExtTreeMap.contains_iff_mem]

/-- An expansion makes its labels known. -/
theorem knows_withLocals {scope : Scope} {names : List String} {x : String} :
    (scope.withLocals names).knows (scope.declare labels names) x = true ↔
      scope.knows labels x = true ∨ x ∈ names := by
  cases scope with
  | program =>
    show program.knows (labels.declare names) x = true ↔ _
    rw [knows_program, knows_program, LabelTable.mem_declare]
  | definition params locals =>
    show (definition params (locals.insertMany names)).knows labels x = true ↔ _
    rw [knows_definition, knows_definition, NameSet.mem_insertMany_names]
    tauto

theorem isTarget_iff : op.IsTarget params (fun x => x ∈ locals ∨ x ∈ labels) ↔
    (definition params locals).checkParam op = .ok () ∧
      (definition params locals).checkTarget labels op = .ok () := by
  constructor
  · intro h
    cases h with
    | address n hn => exact ⟨rfl, ensure_eq_ok_iff.2 (beq_iff_eq.2 hn)⟩
    | param i hi => exact ⟨ensure_eq_ok_iff.2 (decide_eq_true hi), rfl⟩
    | label name hname => exact ⟨rfl, ensure_eq_ok_iff.2 (knows_definition.2 hname)⟩
  · rintro ⟨hp, ht⟩
    cases op with
    | number n => exact .address n (beq_iff_eq.1 (ensure_eq_ok_iff.1 ht))
    | label name => exact .label name (knows_definition.1 (ensure_eq_ok_iff.1 ht))
    | param i => exact .param i (of_decide_eq_true (ensure_eq_ok_iff.1 hp))

theorem checkInstruction_definition {ops : List Operand} :
    (definition params locals).checkInstruction labels ops = .ok () ↔
      Template params (fun x => x ∈ locals ∨ x ∈ labels) ops := by
  unfold checkInstruction
  rw [bind_eq_ok]
  constructor
  · rintro ⟨⟨⟩, hparams, h⟩
    rw [forM_eq_ok] at hparams
    split at h
    · obtain ⟨⟨⟩, ha, hb⟩ := bind_eq_ok.1 h
      exact .next ((isValue_iff locals .a).2 ⟨hparams _ (by simp), ha⟩)
        ((isValue_iff locals .b).2 ⟨hparams _ (by simp), hb⟩)
    · obtain ⟨⟨⟩, ha, h⟩ := bind_eq_ok.1 h
      obtain ⟨⟨⟩, hb, hc⟩ := bind_eq_ok.1 h
      exact .target ((isValue_iff locals .a).2 ⟨hparams _ (by simp), ha⟩)
        ((isValue_iff locals .b).2 ⟨hparams _ (by simp), hb⟩) (isTarget_iff.2 ⟨hparams _ (by simp), hc⟩)
    · cases h
  · intro h
    cases h with
    | next ha hb =>
      obtain ⟨hpa, ha⟩ := (isValue_iff locals .a).1 ha
      obtain ⟨hpb, hb⟩ := (isValue_iff locals .b).1 hb
      exact ⟨(), forM_eq_ok.2 (by simp [hpa, hpb]), bind_eq_ok.2 ⟨(), ha, hb⟩⟩
    | target ha hb hc =>
      obtain ⟨hpa, ha⟩ := (isValue_iff locals .a).1 ha
      obtain ⟨hpb, hb⟩ := (isValue_iff locals .b).1 hb
      obtain ⟨hpc, hc⟩ := isTarget_iff.1 hc
      exact ⟨(), forM_eq_ok.2 (by simp [hpa, hpb, hpc]), bind_eq_ok.2 ⟨(), ha, bind_eq_ok.2 ⟨(), hb, hc⟩⟩⟩

/-- What the checks of an instruction amount to, wherever it stands. -/
theorem exists_template {scope : Scope} {ops : List Operand} (h : scope.checkInstruction labels ops = .ok ()) :
    ∃ params, Template params (fun x => scope.knows labels x = true) ops := by
  cases scope with
  | program =>
    refine ⟨0, ?_⟩
    cases checkInstruction_program.1 h with
    | next a b => exact .next (.number a) (.number b)
    | address a b c hc => exact .target (.number a) (.number b) (.address c hc)
    | label a b name hname => exact .target (.number a) (.number b) (.label name (knows_program.2 hname))
  | definition params locals => exact ⟨params, (checkInstruction_definition.1 h).mono fun x => knows_definition.2⟩

end Scope

/-! ## Records -/

/-- A well-formed record whose instructions are templates; the labels in them are local labels, or `free`. -/
structure Macro.Proper (free : String → Prop) (m : Macro) : Prop extends m.WellFormed where
  template : ∀ ops ∈ Line.instructions m.body, Template m.params (fun x => x ∈ m.locals ∨ free x) ops

/-- All records of a table are proper; `free` tells which labels are free under which name. -/
def MacroTable.Proper (free : String → String → Prop) (t : MacroTable) : Prop :=
  ∀ (k : String) (m : Macro), t[k]? = some m → m.Proper (free k)

/-- A proper record in which no label is free. -/
def Macro.Closed (m : Macro) : Prop := m.Proper fun _ => False

namespace MacroTable.Proper

variable {free free' : String → String → Prop} {t t' : MacroTable}

theorem wellFormed (h : t.Proper free) : t.All Macro.WellFormed := fun k m hm => (h k m hm).toWellFormed

theorem mono (h : t.Proper free) (hfree : ∀ k x, free k x → free' k x) : t.Proper free' := by
  intro k m hm
  refine ⟨(h k m hm).toWellFormed, fun ops hops => ((h k m hm).template ops hops).mono fun x => ?_⟩
  exact Or.imp_right (hfree k x)

/-- Where nothing is free, it does not matter what could be. -/
theorem of_closed (h : t.All Macro.Closed) : t.Proper free :=
  mono (t := t) (fun k m hm => h k m hm) fun _ _ hfalse => hfalse.elim

theorem of_sameCode (h : t.Proper free) (hs : t.SameCode t') : t'.Proper free := by
  intro k m' hm'
  obtain ⟨m, hm, e⟩ := hs.exists_of_getElem? hm'
  refine ⟨(h k m hm).toWellFormed.of_uncounted e, ?_⟩
  rw [← Macro.body_eq_of_uncounted e, ← Macro.params_eq_of_uncounted e, ← Macro.locals_eq_of_uncounted e]
  exact (h k m hm).template

theorem insert (h : t.Proper free) {name : String} {m : Macro} (hm : m.Proper (free name)) :
    MacroTable.Proper free (t.insert name m) := by
  intro k m' hk
  rw [getElem?_insert_name] at hk
  split_ifs at hk with hname
  · cases hk
    exact hname ▸ hm
  · exact h k m' hk

end MacroTable.Proper

/-! ## Definitions -/

namespace Block.Draft

variable {b : Block} {params : Nat} {d d' : Draft} {line : Line} {labels : LabelTable} {rest : List Line}

/-- A definition that is read up to the lines `rest`, with templates only. -/
structure Drawn (params : Nat) (labels : LabelTable) (d : Draft) (rest : List Line) : Prop extends
    d.Sound labels rest where
  template : ∀ ops ∈ Line.instructions d.body.toList, Template params (fun x => x ∈ d.locals ∨ x ∈ labels) ops

/-- **Step**: one more line of a definition. -/
theorem Drawn.step (h : d.Drawn params labels (line :: rest)) (hd : d.step b params line = .ok d') :
    d'.Drawn params labels rest := by
  refine ⟨h.toSound.step hd, ?_⟩
  rcases step_eq_ok hd with ⟨-, rfl⟩ | ⟨name, hl, rfl⟩ | ⟨ops, hl, hcheck, rfl⟩ |
    ⟨name, args, lines, symbols, hl, he, rfl⟩
  · exact h.template
  · rw [Array.toList_push, Line.instructions_append, Line.instructions_cons_label [] hl, Line.instructions_nil,
      List.append_nil]
    exact h.template
  · rw [Array.toList_push, Line.instructions_append, Line.instructions_cons_instruction [] hl,
      Line.instructions_nil]
    refine List.forall_mem_append.2 ⟨h.template, List.forall_mem_singleton.2 ?_⟩
    rw [h.labels_eq] at hcheck
    exact Scope.checkInstruction_definition.1 hcheck
  · obtain ⟨m, -, -, haccept, -⟩ := Symbols.expand_eq_ok_iff.1 he
    have hbody : (d.body ++ lines).toList = d.body.toList ++ lines := by simp
    rw [hbody, Line.instructions_append]
    refine List.forall_mem_append.2 ⟨fun ops hops => (h.template ops hops).mono fun x => ?_, fun ops hops => ?_⟩
    · rw [NameSet.mem_insertMany_names]
      exact Or.imp_left .inl
    · obtain ⟨l, hmem, hstmt⟩ := Line.exists_of_mem_instructions hops
      have hops := Scope.checkInstruction_definition.1 (Scope.checkInstruction_of_accepts hstmt (haccept l hmem))
      exact h.labels_eq ▸ hops

end Block.Draft

namespace Symbols

variable {s s' : Symbols} {b : Block} {free : String → String → Prop}

/-- **A definition adds one proper record**, in which the labels of the program are free. -/
theorem define_proper (hs : s.macros.Proper free) (hb : ∀ l ∈ b.body, l.InRange)
    (hfree : b.name ∉ s.macros → ∀ x ∈ s.labels, free b.name x) (h : s.define b = .ok s') :
    s'.macros.Proper free := by
  obtain ⟨params, locals, d, hname, hlocals, hd, rfl⟩ := define_eq_ok h
  have h0 : Block.Draft.Drawn params s.labels { symbols := s, locals } b.body :=
    ⟨Block.Draft.Sound.start hs.wellFormed hb hlocals, List.forall_mem_nil _⟩
  have hdrawn := foldlM_keeps (Block.Draft.Drawn params s.labels) (fun _ _ _ _ hd hstep => hd.step hstep) h0 hd
  refine (hs.of_sameCode (Block.Draft.sameCode_foldlM hd).1).insert ⟨hdrawn.toSound.wellFormed, ?_⟩
  exact fun ops hops => (hdrawn.template ops hops).mono fun x => Or.imp_right (hfree hname x)

/-- Without labels of the program nothing is free. -/
theorem define_closed (hlabels : s.labels = ∅) (hs : s.macros.All Macro.Closed) (hb : ∀ l ∈ b.body, l.InRange)
    (h : s.define b = .ok s') : s'.macros.All Macro.Closed := by
  have hproper : s.macros.Proper fun _ _ => False := hs
  exact define_proper hproper hb (fun _ x hx => by simp [hlabels] at hx) h

end Symbols

end Abcout
