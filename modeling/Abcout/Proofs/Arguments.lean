import Abcout.Proofs.Privacy

/-!
# Abcout.Proofs.Arguments — an expansion is refused for its arguments only

A call is checked before it is expanded, and every instruction of the expansion is checked again.  The second check
can only find what an argument does to the place where the body puts it: a label where a value has to stand, or a
number that is no address where a target has to stand (`Misfit`).  All else that it asks for is there already, as
the records of every state of a run are proper, and the labels that are free in them are known.

* `Scope.checkInstruction_substitute`: one instruction of a body, with arguments put in.
* `Symbols.expand_of_proper`: a whole expansion.
* `Assembly.context_expand_exact`: calls in all states of a run, in the program as in definitions.
-/

namespace Abcout

/-- An instruction of a body gets an argument that cannot stand where it is put: a label for one of the first two
operands, or a number that is no address for the third. -/
def Misfit (args ops : List Operand) : Prop :=
  (∃ i name, (ops[0]? = some (.param i) ∨ ops[1]? = some (.param i)) ∧ args[i]? = some (.label name)) ∨
    ∃ i n, ops[2]? = some (.param i) ∧ args[i]? = some (.number n) ∧ n.toNat % 6 ≠ 0

/-- Some instruction of a body gets such an argument. -/
def Macro.Misfits (m : Macro) (args : List Operand) : Prop := ∃ ops ∈ Line.instructions m.body, Misfit args ops

theorem misfit_pair {args : List Operand} {a b : Operand} : Misfit args [a, b] ↔
    (∃ i name, a = .param i ∧ args[i]? = some (.label name)) ∨
      ∃ i name, b = .param i ∧ args[i]? = some (.label name) := by
  simp [Misfit, or_and_right, exists_or]

theorem misfit_triple {args : List Operand} {a b c : Operand} : Misfit args [a, b, c] ↔
    (∃ i name, a = .param i ∧ args[i]? = some (.label name)) ∨
      (∃ i name, b = .param i ∧ args[i]? = some (.label name)) ∨
        ∃ i n, c = .param i ∧ args[i]? = some (.number n) ∧ n.toNat % 6 ≠ 0 := by
  simp [Misfit, or_and_right, exists_or, or_assoc]

namespace Scope

variable {scope : Scope} {labels : LabelTable} {names : List String} {args : List Operand}

/-! ## The scope of an expansion -/

theorem checkParam_withLocals (op : Operand) : (scope.withLocals names).checkParam op = scope.checkParam op := by
  cases scope with
  | program => rfl
  | definition params locals => cases op <;> rfl

theorem knows_of_mem_labels {x : String} (h : x ∈ labels) : scope.knows labels x = true := by
  unfold knows
  rw [Std.ExtTreeMap.contains_iff_mem.2 h, Bool.true_or]

theorem checkInstruction_pair {a b : Operand} (hparams : ∀ op ∈ [a, b], scope.checkParam op = .ok ()) :
    scope.checkInstruction labels [a, b] = .ok () ↔ checkValue .a a = .ok () ∧ checkValue .b b = .ok () := by
  unfold checkInstruction
  rw [check_bind_eq_ok, check_bind_eq_ok, and_iff_right (forM_eq_ok.2 hparams)]

theorem checkInstruction_triple {a b c : Operand} (hparams : ∀ op ∈ [a, b, c], scope.checkParam op = .ok ()) :
    scope.checkInstruction labels [a, b, c] = .ok () ↔
      checkValue .a a = .ok () ∧ checkValue .b b = .ok () ∧ scope.checkTarget labels c = .ok () := by
  unfold checkInstruction
  rw [check_bind_eq_ok, check_bind_eq_ok, check_bind_eq_ok, and_iff_right (forM_eq_ok.2 hparams)]

/-! ## Operands with arguments put in -/

variable {r : Renaming} {op : Operand}

/-- What is put in the place of a parameter that a call has an argument for. -/
theorem exists_argument {i : Nat} (hi : i < args.length) :
    ∃ arg ∈ args, args[i]? = some arg ∧ (Operand.param i).substitute args r = arg :=
  ⟨args[i], List.getElem_mem hi, List.getElem?_eq_getElem hi, by simp [Operand.substitute, hi]⟩

/-- A value stays a value unless a label is put in its place. -/
theorem checkValue_substitute (slot : Slot) (hop : op.IsValue args.length) :
    checkValue slot (op.substitute args r) = .ok () ↔
      ¬ ∃ i name, op = .param i ∧ args[i]? = some (.label name) := by
  cases hop with
  | number n => exact iff_of_true rfl (by rintro ⟨i, name, hi, -⟩; cases hi)
  | param i hi =>
    obtain ⟨arg, -, hget, hsubstitute⟩ := exists_argument (r := r) hi
    rw [hsubstitute]
    have hother : (∀ name, arg ≠ .label name) →
        ¬ ∃ j name, Operand.param i = .param j ∧ args[j]? = some (.label name) := by
      rintro hne ⟨j, name, hj, hname⟩
      cases hj
      exact hne name (Option.some.inj (hget.symm.trans hname))
    cases arg with
    | number n => exact iff_of_true rfl (hother nofun)
    | param j => exact iff_of_true rfl (hother nofun)
    | label name => exact iff_of_false nofun fun h => h ⟨i, name, rfl, hget⟩

section Checked

variable (hargs : ∀ arg ∈ args, scope.checkArgument labels arg = .ok ())
include hargs

theorem checkParam_substitute (hop : ∀ i, op = .param i → i < args.length) :
    (scope.withLocals names).checkParam (op.substitute args r) = .ok () := by
  rw [checkParam_withLocals]
  cases op with
  | number n => rfl
  | label name => rfl
  | param i =>
    obtain ⟨arg, hmem, -, hsubstitute⟩ := exists_argument (r := r) (hop i rfl)
    rw [hsubstitute]
    exact (check_bind_eq_ok.1 (hargs arg hmem)).1

/-- A target stays a target unless a number that is no address is put in its place. -/
theorem checkTarget_substitute {known : String → Prop} (hop : op.IsTarget args.length known)
    (hknown : ∀ x, known x → (scope.withLocals names).knows (scope.declare labels names) (r.apply x) = true) :
    (scope.withLocals names).checkTarget (scope.declare labels names) (op.substitute args r) = .ok () ↔
      ¬ ∃ i n, op = .param i ∧ args[i]? = some (.number n) ∧ n.toNat % 6 ≠ 0 := by
  cases hop with
  | address n hn => exact iff_of_true (ensure_eq_ok_iff.2 (beq_iff_eq.2 hn)) (by rintro ⟨i, m, hi, -⟩; cases hi)
  | label x hx => exact iff_of_true (ensure_eq_ok_iff.2 (hknown x hx)) (by rintro ⟨i, m, hi, -⟩; cases hi)
  | param i hi =>
    obtain ⟨arg, hmem, hget, hsubstitute⟩ := exists_argument (r := r) hi
    rw [hsubstitute]
    have hother : (∀ n : UInt16, arg = .number n → n.toNat % 6 = 0) →
        ¬ ∃ j n, Operand.param i = .param j ∧ args[j]? = some (.number n) ∧ n.toNat % 6 ≠ 0 := by
      rintro hzero ⟨j, n, hj, hnumber, hn⟩
      cases hj
      exact hn (hzero n (Option.some.inj (hget.symm.trans hnumber)))
    cases arg with
    | number n =>
      by_cases hn : n.toNat % 6 = 0
      · refine iff_of_true (ensure_eq_ok_iff.2 (beq_iff_eq.2 hn)) (hother fun m hm => ?_)
        cases hm
        exact hn
      · refine iff_of_false (fun h => hn (beq_iff_eq.1 (ensure_eq_ok_iff.1 h))) fun h => h ⟨i, n, rfl, hget, hn⟩
    | param j => exact iff_of_true rfl (hother nofun)
    | label x =>
      -- a label that is passed was known before, and still is
      have hbefore : scope.knows labels x = true := ensure_eq_ok_iff.1 (check_bind_eq_ok.1 (hargs _ hmem)).2
      exact iff_of_true (ensure_eq_ok_iff.2 (knows_withLocals.2 (.inl hbefore))) (hother nofun)

/-- **One instruction of a body**, with arguments put in, is refused iff one of them cannot stand where it is
put. -/
theorem checkInstruction_substitute {known : String → Prop} {ops : List Operand}
    (hops : Template args.length known ops)
    (hknown : ∀ x, known x → (scope.withLocals names).knows (scope.declare labels names) (r.apply x) = true) :
    (scope.withLocals names).checkInstruction (scope.declare labels names)
      (ops.map (Operand.substitute args r)) = .ok () ↔ ¬ Misfit args ops := by
  have hparams : ∀ op ∈ ops.map (Operand.substitute args r), (scope.withLocals names).checkParam op = .ok () := by
    intro op hop
    obtain ⟨op, hmem, rfl⟩ := List.mem_map.1 hop
    exact checkParam_substitute hargs fun i hi => hops.lt_of_mem (hi ▸ hmem)
  cases hops with
  | next ha hb =>
    show (scope.withLocals names).checkInstruction (scope.declare labels names) [_, _] = .ok () ↔ _
    rw [checkInstruction_pair hparams, checkValue_substitute .a ha, checkValue_substitute .b hb,
      misfit_pair, not_or]
  | target ha hb hc =>
    show (scope.withLocals names).checkInstruction (scope.declare labels names) [_, _, _] = .ok () ↔ _
    rw [checkInstruction_triple hparams, checkValue_substitute .a ha, checkValue_substitute .b hb,
      checkTarget_substitute hargs hc hknown, misfit_triple, not_or, not_or]

end Checked

end Scope

/-! ## Expansions -/

namespace Symbols

variable {s : Symbols} {scope : Scope} {name : String} {args : List Operand} {m : Macro} {free : String → Prop}

/-- The labels that a body mentions are known once its own are declared. -/
theorem knows_freshNames (hm : m.WellFormed) (hfree : ∀ x, free x → x ∈ s.labels) (site : Line) {x : String}
    (hx : x ∈ m.locals ∨ free x) :
    let r := scope.freshNames s.labels name m
    let names := Line.declared (m.instantiate args r site)
    (scope.withLocals names).knows (scope.declare s.labels names) (r.apply x) = true := by
  intro r names
  rw [Scope.knows_withLocals]
  by_cases hlocal : x ∈ m.locals
  · right
    show r.apply x ∈ Line.declared (m.instantiate args r site)
    rw [declared_instantiate]
    exact List.mem_map_of_mem ((hm.mem_locals x).1 hlocal)
  · left
    rw [Scope.freshNames_of_notMem hlocal]
    exact Scope.knows_of_mem_labels (hfree x (hx.resolve_left hlocal))

theorem expand_eq_error {site : Line} (hm : s.macros[name]? = some m)
    (hrefused : let lines := m.instantiate args (scope.freshNames s.labels name m) site
      ¬ ∀ l ∈ lines, (scope.withLocals (Line.declared lines)).accepts
        (scope.declare s.labels (Line.declared lines)) l = true) :
    s.expand scope site name args = .error (site.fault .expansionInvalid) := by
  unfold expand
  rw [hm]
  exact if_neg fun hall => hrefused (List.all_eq_true.1 hall)

/-- The second check of a call that was accepted. -/
theorem accepts_instantiate_iff (hm : s.macros[name]? = some m) (hproper : m.Proper free)
    (hfree : ∀ x, free x → x ∈ s.labels) (hcall : scope.checkCall s name args = .ok ()) (site : Line) :
    let lines := m.instantiate args (scope.freshNames s.labels name m) site
    (∀ l ∈ lines, (scope.withLocals (Line.declared lines)).accepts
        (scope.declare s.labels (Line.declared lines)) l = true) ↔ ¬ m.Misfits args := by
  intro lines
  obtain ⟨-, hargs, m', hm', hlength⟩ := Scope.checkCall_eq_ok_iff.1 hcall
  have hsame : m' = m := Option.some.inj (hm'.symm.trans hm)
  have hone : ∀ ops ∈ Line.instructions m.body, ((scope.withLocals (Line.declared lines)).checkInstruction
      (scope.declare s.labels (Line.declared lines))
      (ops.map (Operand.substitute args (scope.freshNames s.labels name m))) = .ok () ↔ ¬ Misfit args ops) := by
    intro ops hops
    have htemplate := hproper.template ops hops
    rw [← hsame, ← hlength, hsame] at htemplate
    exact Scope.checkInstruction_substitute hargs htemplate fun x hx =>
      knows_freshNames hproper.toWellFormed hfree site hx
  constructor
  · rintro hall ⟨ops, hops, hmisfit⟩
    have hmem : ops.map (Operand.substitute args (scope.freshNames s.labels name m)) ∈
        Line.instructions lines := by
      rw [instructions_instantiate]
      exact List.mem_map_of_mem hops
    obtain ⟨l, hl, hstatement⟩ := Line.exists_of_mem_instructions hmem
    exact (hone ops hops).1 (Scope.checkInstruction_of_accepts hstatement (hall l hl)) hmisfit
  · intro hfits l hl
    rw [Scope.accepts_iff]
    intro ops hstatement
    have hmem := Line.mem_instructions hl hstatement
    rw [instructions_instantiate] at hmem
    obtain ⟨ops₀, hops₀, rfl⟩ := List.mem_map.1 hmem
    exact (hone ops₀ hops₀).2 fun hmisfit => hfits ⟨ops₀, hops₀, hmisfit⟩

/-- **A whole expansion.**  A call that is accepted is expanded, unless an argument cannot stand where the body
puts it. -/
theorem expand_of_proper (hm : s.macros[name]? = some m) (hproper : m.Proper free)
    (hfree : ∀ x, free x → x ∈ s.labels) (hcall : scope.checkCall s name args = .ok ()) (site : Line) :
    (m.Misfits args → s.expand scope site name args = .error (site.fault .expansionInvalid)) ∧
      (¬ m.Misfits args → ∃ s', s.expand scope site name args =
        .ok (m.instantiate args (scope.freshNames s.labels name m) site, s')) := by
  have haccepts := accepts_instantiate_iff hm hproper hfree hcall site
  constructor
  · intro hmisfits
    refine expand_eq_error hm fun hall => ?_
    exact haccepts.1 hall hmisfits
  · intro hfits
    exact ⟨_, expand_eq_ok_iff.2 ⟨m, hm, rfl, haccepts.2 hfits, rfl⟩⟩

end Symbols

/-! ## Calls in all states of a run -/

namespace Assembly

variable {tree : FileTree} {origin : Origin} {text : String}

/-- **When an expansion fails.**  In all states of a run, and wherever a call stands: if the call is accepted,
expanding it fails iff an argument cannot stand where the body of the macro puts it, and the fault is then one of
the call.  Otherwise there is one line for each line of the body, at the place of the call. -/
theorem context_expand_exact {owner : Import.Owner} {s : Symbols} (h : Context tree origin text owner s)
    {scope : Scope} {name : String} {args : List Operand} (hcall : scope.checkCall s name args = .ok ())
    (site : Line) :
    ∃ m, s.macros[name]? = some m ∧
      (∀ fault, s.expand scope site name args = .error fault ↔
        m.Misfits args ∧ fault = site.fault .expansionInvalid) ∧
      (¬ m.Misfits args → ∃ lines s', s.expand scope site name args = .ok (lines, s') ∧
        lines.length = m.body.length ∧ ∀ l ∈ lines, l.file = site.file ∧ l.number = site.number) := by
  obtain ⟨-, -, m, hm, -⟩ := Scope.checkCall_eq_ok_iff.1 hcall
  have hfree : ∀ x, owner = .root ∧ FreeIn tree origin text s name x → x ∈ s.labels := by
    rintro x ⟨-, p, -, -, -, -, hx⟩
    exact hx
  obtain ⟨hfails, hsucceeds⟩ := Symbols.expand_of_proper hm (h.proper name m hm) hfree hcall site
  refine ⟨m, hm, fun fault => ?_, fun hfits => ?_⟩
  · by_cases hmisfits : m.Misfits args
    · rw [hfails hmisfits, and_iff_right hmisfits, Except.error.injEq, eq_comm]
    · obtain ⟨s', hs'⟩ := hsucceeds hmisfits
      rw [hs']
      exact iff_of_false nofun fun hboth => hmisfits hboth.1
  · obtain ⟨s', hs'⟩ := hsucceeds hfits
    refine ⟨_, s', hs', List.length_map .., fun l hl => ?_⟩
    obtain ⟨l₀, -, rfl⟩ := List.mem_map.1 hl
    exact ⟨rfl, rfl⟩

/-- A label for a value is refused, a parameter for one is not. -/
theorem context_expand_exact_libraryUse : ∃ s m, Context library {} libraryUse .root s ∧
    s.macros["back"]? = some m ∧ Scope.program.checkCall s "back" [.label "start"] = .ok () ∧
    (∀ site, s.expand .program site "back" [.label "start"] = .error (site.fault .expansionInvalid)) ∧
    (Scope.definition 2 ∅).checkCall s "back" [.param 1] = .ok () ∧
    ∀ site, ∃ lines s', s.expand (.definition 2 ∅) site "back" [.param 1] = .ok (lines, s') ∧
      lines.length = m.body.length ∧ ∀ l ∈ lines, l.file = site.file ∧ l.number = site.number := by
  obtain ⟨S, s, m, hstream, hm, hparams, hlocals, hbody⟩ := stream_libraryUse
  obtain ⟨p, s₀, hp, hs₀, hs⟩ := stream_eq_ok hstream
  have hcontext : Context library {} libraryUse .root s := .expanding hp hs₀ (List.append_nil _).symm hs
  have hlast : [.param 0, .number 2, .label "start"] ∈ Line.instructions m.body := by simp [hbody]
  have hstart : "start" ∈ s.labels := by
    rcases ((hcontext.proper "back" m hm).template _ hlast).known_of_mem (x := "start") (by simp)
      with hlocal | hfree
    · rw [← Std.ExtTreeSet.mem_toList, hlocals] at hlocal
      exact absurd hlocal (by decide)
    · obtain ⟨-, q, -, -, -, -, hx⟩ := hfree
      exact hx
  have hlabel : Scope.program.checkCall s "back" [.label "start"] = .ok () := by
    refine Scope.checkCall_eq_ok_iff.2 ⟨by decide, List.forall_mem_singleton.2 ?_, m, hm, hparams.symm⟩
    exact check_bind_eq_ok.2 ⟨rfl, ensure_eq_ok_iff.2 (Scope.knows_of_mem_labels hstart)⟩
  have hparam : (Scope.definition 2 ∅).checkCall s "back" [.param 1] = .ok () :=
    Scope.checkCall_eq_ok_iff.2 ⟨by decide, List.forall_mem_singleton.2 rfl, m, hm, hparams.symm⟩
  have hmisfits : m.Misfits [.label "start"] := ⟨_, hlast, .inl ⟨0, "start", .inl rfl, rfl⟩⟩
  have hfits : ¬ m.Misfits [.param 1] := by
    simp [Macro.Misfits, Misfit, List.getElem?_singleton]
  refine ⟨s, m, hcontext, hm, hlabel, fun site => ?_, hparam, fun site => ?_⟩
  · obtain ⟨m', hm', hfails, -⟩ := context_expand_exact hcontext hlabel site
    cases hm.symm.trans hm'
    exact (hfails _).2 ⟨hmisfits, rfl⟩
  · obtain ⟨m', hm', -, hsucceeds⟩ := context_expand_exact hcontext hparam site
    cases hm.symm.trans hm'
    exact hsucceeds hfits

end Assembly

end Abcout
