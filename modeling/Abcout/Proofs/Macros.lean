import Abcout.Macro.Definition
import Abcout.Proofs.Stream

/-!
# Abcout.Proofs.Macros — what every defined macro satisfies

* `Symbols.expand_eq_ok_iff`: all that a call does, in one statement.  Later proofs never unfold `expand`.
* `MacroTable.SameCode`: a call changes counters only, so bodies, parameters and local labels stay
  (`sameCode_countCall`).  `MacroTable.Extends`: a definition keeps the records that are there
  (`Symbols.extends_define`).
* `Macro.WellFormed`: the body is labels and instructions, its numbers are in range, and the local labels are
  exactly the declared ones, each declared once.
* `Progress`: what expansion keeps, in a definition as in the program, told of the lines made and the lines to
  come.
* `Block.Draft.step_eq_ok`: all that a line of a definition does.
* `Symbols.define_wellFormed`: a definition adds one record to a table of such records.
-/

namespace Abcout

/-! ## Names that are in use -/

namespace Scope

/-- Whether a name cannot be given to a label of an expansion: a label of the program for a call there, a local
label for a call in a definition. -/
def inUse (scope : Scope) (labels : LabelTable) : String → Bool :=
  match scope with
  | program => labels.contains
  | definition _ locals => locals.contains

section FreshNames

variable {scope : Scope} {labels : LabelTable} {name : String} {m : Macro} {l l' : String}

theorem inUse_freshNames (hl : l ∈ m.locals) :
    scope.inUse labels ((scope.freshNames labels name m).apply l) = false := by
  cases scope with
  | program => exact Renaming.apply_fresh_free (Renaming.fewTaken_table labels) hl
  | definition params locals => exact Renaming.apply_fresh_free (Renaming.fewTaken_set locals) hl

theorem exists_freshNames_eq (hl : l ∈ m.locals) : ∃ k, (scope.freshNames labels name m).apply l =
    Renaming.candidate (Renaming.mangle name l (scope.nextCall m)) k := by
  cases scope with
  | program => exact Renaming.exists_apply_fresh_eq (Renaming.fewTaken_table labels) hl
  | definition params locals => exact Renaming.exists_apply_fresh_eq (Renaming.fewTaken_set locals) hl

theorem freshNames_reserved (hl : l ∈ m.locals) : Reserved ((scope.freshNames labels name m).apply l) := by
  obtain ⟨k, hk⟩ := exists_freshNames_eq hl
  rw [hk]
  exact Renaming.reserved_candidate name l _ k

theorem freshNames_inj (hl : l ∈ m.locals) (hl' : l' ∈ m.locals)
    (h : (scope.freshNames labels name m).apply l = (scope.freshNames labels name m).apply l') : l = l' := by
  cases scope with
  | program => exact Renaming.apply_fresh_inj (Renaming.fewTaken_table labels) hl hl' h
  | definition params locals => exact Renaming.apply_fresh_inj (Renaming.fewTaken_set locals) hl hl' h

theorem freshNames_of_notMem (hl : l ∉ m.locals) : (scope.freshNames labels name m).apply l = l := by
  cases scope with
  | program => exact Renaming.apply_fresh_of_notMem (Renaming.fewTaken_table labels) hl
  | definition params locals => exact Renaming.apply_fresh_of_notMem (Renaming.fewTaken_set locals) hl

end FreshNames

end Scope

/-! ## Calls -/

/-- **All that a call does**: it puts the instantiated body in its place, declares the labels of that body, and
counts. -/
theorem Symbols.expand_eq_ok_iff {s s' : Symbols} {scope : Scope} {site : Line} {name : String}
    {args : List Operand} {lines : List Line} :
    s.expand scope site name args = .ok (lines, s') ↔ ∃ m, s.macros[name]? = some m ∧
      lines = m.instantiate args (scope.freshNames s.labels name m) site ∧
      (∀ l ∈ lines, (scope.withLocals (Line.declared lines)).accepts
        (scope.declare s.labels (Line.declared lines)) l = true) ∧
      s' = ⟨scope.declare s.labels (Line.declared lines), scope.countCall s.macros name m⟩ := by
  unfold Symbols.expand
  cases hm : s.macros[name]? with
  | none => simp
  | some m =>
    simp only [Option.some.injEq, exists_eq_left']
    constructor
    · intro h
      split_ifs at h with hall
      cases h
      exact ⟨rfl, List.all_eq_true.1 hall, rfl⟩
    · rintro ⟨rfl, hall, rfl⟩
      rw [if_pos (List.all_eq_true.2 hall)]

/-- **All that is asked of a call**: its arguments are there, and they are as many as the macro has parameters. -/
theorem Scope.checkCall_eq_ok_iff {scope : Scope} {s : Symbols} {name : String} {args : List Operand} :
    scope.checkCall s name args = .ok () ↔
      name ≠ mnemonic ∧ (∀ arg ∈ args, scope.checkArgument s.labels arg = .ok ()) ∧
      ∃ m, s.macros[name]? = some m ∧ args.length = m.params := by
  unfold Scope.checkCall
  rw [ensure_bind_eq_ok, check_bind_eq_ok, bne_iff_ne, forM_eq_ok]
  refine and_congr_right fun _ => and_congr_right fun _ => ?_
  cases s.macros[name]? with
  | none => simp
  | some m => simp [ensure_eq_ok_iff]

/-- A record without its counters. -/
def Macro.uncounted (m : Macro) : Macro := { m with calls := 0, topLevelCalls := 0 }

namespace Macro

variable {m m' : Macro}

@[simp] theorem uncounted_counted (m : Macro) : m.counted.uncounted = m.uncounted := rfl

@[simp] theorem uncounted_countedTopLevel (m : Macro) : m.countedTopLevel.uncounted = m.uncounted := rfl

theorem body_eq_of_uncounted (h : m.uncounted = m'.uncounted) : m.body = m'.body :=
  (Macro.mk.inj h).2.1

theorem locals_eq_of_uncounted (h : m.uncounted = m'.uncounted) : m.locals = m'.locals :=
  (Macro.mk.inj h).2.2.2.1

theorem params_eq_of_uncounted (h : m.uncounted = m'.uncounted) : m.params = m'.params :=
  (Macro.mk.inj h).1

end Macro

/-- The second table has the records of the first, up to counters. -/
def MacroTable.SameCode (t t' : MacroTable) : Prop :=
  ∀ k : String, t'[k]?.map Macro.uncounted = t[k]?.map Macro.uncounted

namespace MacroTable

theorem SameCode.refl (t : MacroTable) : t.SameCode t := fun _ => rfl

theorem SameCode.trans {t t' t'' : MacroTable} (h : t.SameCode t') (h' : t'.SameCode t'') : t.SameCode t'' :=
  fun k => (h' k).trans (h k)

theorem SameCode.symm {t t' : MacroTable} (h : t.SameCode t') : t'.SameCode t := fun k => (h k).symm

theorem SameCode.exists_of_getElem? {t t' : MacroTable} (h : t.SameCode t') {k : String} {m' : Macro}
    (hm' : t'[k]? = some m') : ∃ m, t[k]? = some m ∧ m.uncounted = m'.uncounted := by
  have hk := h k
  rw [hm', Option.map_some] at hk
  exact Option.map_eq_some_iff.1 hk.symm

theorem sameCode_modify (t : MacroTable) (name : String) {f : Macro → Macro}
    (hf : ∀ m : Macro, (f m).uncounted = m.uncounted) : t.SameCode (t.modify name f) := by
  intro k
  rw [getElem?_modify_name]
  split_ifs
  · rw [Option.map_map]
    congr 1
    funext m
    exact hf m
  · rfl

theorem sameCode_foldl_modify (names : List String) (t : MacroTable) {f : Macro → Macro}
    (hf : ∀ m : Macro, (f m).uncounted = m.uncounted) :
    t.SameCode (names.foldl (fun t name => t.modify name f) t) := by
  induction names generalizing t with
  | nil => exact .refl t
  | cons name names ih => exact (sameCode_modify t name hf).trans (ih (t.modify name f))

end MacroTable

/-- The second table has the records of the first, up to counters, and maybe others. -/
def MacroTable.Extends (t t' : MacroTable) : Prop :=
  ∀ (k : String) (m : Macro), t[k]? = some m → ∃ m', t'[k]? = some m' ∧ m.uncounted = m'.uncounted

namespace MacroTable

theorem Extends.refl (t : MacroTable) : t.Extends t := fun _ m hm => ⟨m, hm, rfl⟩

theorem Extends.trans {t t' t'' : MacroTable} (h : t.Extends t') (h' : t'.Extends t'') : t.Extends t'' := by
  intro k m hm
  obtain ⟨m', hm', e⟩ := h k m hm
  obtain ⟨m'', hm'', e'⟩ := h' k m' hm'
  exact ⟨m'', hm'', e.trans e'⟩

theorem SameCode.extends {t t' : MacroTable} (h : t.SameCode t') : t.Extends t' := by
  intro k m hm
  have hk := h k
  rw [hm, Option.map_some] at hk
  obtain ⟨m', hm', e⟩ := Option.map_eq_some_iff.1 hk
  exact ⟨m', hm', e.symm⟩

theorem Extends.insert {t t' : MacroTable} (h : t.Extends t') {name : String} (hname : name ∉ t) (m : Macro) :
    t.Extends (t'.insert name m) := by
  intro k m' hm'
  have hk : name ≠ k := by
    rintro rfl
    exact hname (mem_iff_exists_getElem?.2 ⟨m', hm'⟩)
  rw [getElem?_insert_name, if_neg hk]
  exact h k m' hm'

theorem Extends.mem {t t' : MacroTable} (h : t.Extends t') {k : String} (hk : k ∈ t) : k ∈ t' := by
  rw [mem_iff_exists_getElem?] at hk ⊢
  obtain ⟨m, hm⟩ := hk
  obtain ⟨m', hm', -⟩ := h k m hm
  exact ⟨m', hm'⟩

end MacroTable

theorem Scope.sameCode_countCall (scope : Scope) (t : MacroTable) (name : String) (m : Macro) :
    t.SameCode (scope.countCall t name m) := by
  cases scope with
  | program =>
    exact (MacroTable.sameCode_modify t name Macro.uncounted_countedTopLevel).trans
      (MacroTable.sameCode_foldl_modify m.dependencies.toList _ Macro.uncounted_counted)
  | definition params locals => exact MacroTable.sameCode_modify t name Macro.uncounted_counted

/-! ## Well-formed records -/

/-- The body is labels and instructions with numbers in range, and the local labels are those that it declares,
each declared once. -/
structure Macro.WellFormed (m : Macro) : Prop where
  isCode : ∀ l ∈ m.body, l.IsCode
  inRange : ∀ l ∈ m.body, l.InRange
  nodup : (Line.declared m.body).Nodup
  mem_locals : ∀ name, name ∈ m.locals ↔ name ∈ Line.declared m.body

/-- All records of a table satisfy `P`. -/
def MacroTable.All (P : Macro → Prop) (t : MacroTable) : Prop := ∀ (k : String) (m : Macro), t[k]? = some m → P m

theorem MacroTable.all_empty (P : Macro → Prop) : MacroTable.All P ∅ := by
  intro k m hm
  simp at hm

theorem MacroTable.All.insert {P : Macro → Prop} {t : MacroTable} (h : t.All P) (name : String)
    {m : Macro} (hm : P m) : MacroTable.All P (t.insert name m) := by
  intro k m' hk
  rw [getElem?_insert_name] at hk
  split_ifs at hk
  · cases hk
    exact hm
  · exact h k m' hk

/-- What holds of records up to their counters holds of tables with the same code. -/
theorem MacroTable.All.of_sameCode {P : Macro → Prop} {t t' : MacroTable} (h : t.All P) (hs : t.SameCode t')
    (hP : ∀ {m m' : Macro}, P m → m.uncounted = m'.uncounted → P m') : t'.All P := by
  intro k m' hm'
  obtain ⟨m, hm, e⟩ := hs.exists_of_getElem? hm'
  exact hP (h k m hm) e

theorem Macro.WellFormed.of_uncounted {m m' : Macro} (h : m.WellFormed) (e : m.uncounted = m'.uncounted) :
    m'.WellFormed := by
  have hbody := Macro.body_eq_of_uncounted e
  have hlocals := Macro.locals_eq_of_uncounted e
  exact ⟨hbody ▸ h.isCode, hbody ▸ h.inRange, hbody ▸ h.nodup, hbody ▸ hlocals ▸ h.mem_locals⟩

/-- The labels of an expansion are all different, and none is in use. -/
theorem Macro.WellFormed.declared_instantiate {m : Macro} (h : m.WellFormed) (scope : Scope) (labels : LabelTable)
    (name : String) (args : List Operand) (site : Line) :
    (Line.declared (m.instantiate args (scope.freshNames labels name m) site)).Nodup ∧
      ∀ x ∈ Line.declared (m.instantiate args (scope.freshNames labels name m) site),
        scope.inUse labels x = false := by
  rw [Abcout.declared_instantiate]
  constructor
  · refine List.Nodup.map_on ?_ h.nodup
    intro x hx y hy e
    exact Scope.freshNames_inj ((h.mem_locals x).2 hx) ((h.mem_locals y).2 hy) e
  · intro x hx
    obtain ⟨l, hl, rfl⟩ := List.mem_map.1 hx
    exact Scope.inUse_freshNames ((h.mem_locals l).2 hl)

/-! ## Lines that are being expanded -/

/-- Lines that are expanded up to `rest`: `done` stands for the others.  The names that are `known` are those of
all labels, and no label is declared twice. -/
structure Progress (t : MacroTable) (known : String → Prop) (done rest : List Line) : Prop where
  macros : t.All Macro.WellFormed
  isCode : ∀ l ∈ done, l.IsCode
  inRange : ∀ l ∈ done, l.InRange
  rest_inRange : ∀ l ∈ rest, l.InRange
  nodup : (Line.declared done ++ Line.declared rest).Nodup
  mem_known : ∀ x, known x ↔ x ∈ Line.declared done ++ Line.declared rest

namespace Progress

variable {t : MacroTable} {known known' : String → Prop} {done rest : List Line} {line : Line}

theorem congr (h : Progress t known done rest) (hk : ∀ x, known' x ↔ known x) : Progress t known' done rest where
  macros := h.macros
  isCode := h.isCode
  inRange := h.inRange
  rest_inRange := h.rest_inRange
  nodup := h.nodup
  mem_known := fun x => (hk x).trans (h.mem_known x)

/-- A line that declares nothing is passed over. -/
theorem skip (h : Progress t known done (line :: rest)) (hl : ∀ name, line.statement ≠ .label name) :
    Progress t known done rest where
  macros := h.macros
  isCode := h.isCode
  inRange := h.inRange
  rest_inRange := (List.forall_mem_cons.1 h.rest_inRange).2
  nodup := Line.declared_cons_of_ne rest hl ▸ h.nodup
  mem_known := Line.declared_cons_of_ne rest hl ▸ h.mem_known

/-- A label or an instruction stays as it stands. -/
theorem keep (h : Progress t known done (line :: rest)) (hl : line.IsCode) :
    Progress t known (done ++ [line]) rest := by
  obtain ⟨hline, hrest⟩ := List.forall_mem_cons.1 h.rest_inRange
  have hdecl : Line.declared (done ++ [line]) ++ Line.declared rest =
      Line.declared done ++ Line.declared (line :: rest) := by
    rw [Line.declared_append, List.append_assoc, ← Line.declared_append, List.singleton_append]
  refine ⟨h.macros, ?_, ?_, hrest, hdecl ▸ h.nodup, hdecl ▸ h.mem_known⟩
  · exact List.forall_mem_append.2 ⟨h.isCode, List.forall_mem_singleton.2 hl⟩
  · exact List.forall_mem_append.2 ⟨h.inRange, List.forall_mem_singleton.2 hline⟩

/-- A call brings labels that were not known. -/
theorem call {s s' : Symbols} {scope : Scope} {name : String} {args : List Operand} {lines : List Line}
    (h : Progress s.macros known done (line :: rest)) (hl : line.statement = .call name args)
    (he : s.expand scope line name args = .ok (lines, s'))
    (hknown : ∀ x, scope.inUse s.labels x = false → ¬ known x) :
    Progress s'.macros (fun x => known x ∨ x ∈ Line.declared lines) (done ++ lines) rest := by
  obtain ⟨m, hm, hlines, -, rfl⟩ := Symbols.expand_eq_ok_iff.1 he
  have hwf := h.macros name m hm
  have hskip := h.skip (by simp [hl])
  have hargs : ∀ arg ∈ args, arg.InRange := by
    have hline := h.rest_inRange line List.mem_cons_self
    rw [Line.InRange, hl] at hline
    exact hline
  have hcode := isCode_instantiate m args (scope.freshNames s.labels name m) line hwf.isCode
  have hrange := inRange_instantiate m args (scope.freshNames s.labels name m) line hwf.inRange hwf.isCode hargs
  obtain ⟨hnd, hnew⟩ := hwf.declared_instantiate scope s.labels name args line
  rw [← hlines] at hcode hrange hnd hnew
  have hout : ∀ x ∈ Line.declared lines, x ∉ Line.declared done ++ Line.declared rest := fun x hx hmem =>
    hknown x (hnew x hx) ((hskip.mem_known x).2 hmem)
  refine ⟨h.macros.of_sameCode (Scope.sameCode_countCall _ _ _ _) .of_uncounted, ?_, ?_, hskip.rest_inRange,
    ?_, fun x => ?_⟩
  · exact List.forall_mem_append.2 ⟨h.isCode, hcode⟩
  · exact List.forall_mem_append.2 ⟨h.inRange, hrange⟩
  · -- the new names stand between two lists that have none of them
    have hperm : (Line.declared lines ++ (Line.declared done ++ Line.declared rest)).Nodup :=
      List.nodup_append.2 ⟨hnd, hskip.nodup, fun x hx y hy e => hout x hx (e ▸ hy)⟩
    rw [← List.append_assoc] at hperm
    rw [Line.declared_append]
    exact (List.perm_append_comm.append_right _).nodup_iff.1 hperm
  · rw [hskip.mem_known, Line.declared_append]
    simp only [List.mem_append]
    tauto

end Progress

/-! ## Definitions -/

namespace Block

theorem addLocal_eq_ok {locals locals' : NameSet} {line : Line} (h : addLocal locals line = .ok locals') :
    (∃ name, line.statement = .label name ∧ isIdentifier name.toList = true ∧ name ∉ locals ∧
        locals' = locals.insert name) ∨
      ((∀ name, line.statement ≠ .label name) ∧ locals' = locals) := by
  unfold addLocal at h
  split at h
  · rename_i name hname
    obtain ⟨-, h⟩ := ensure_bind_eq_ok.1 h
    obtain ⟨hidentifier, h⟩ := ensure_bind_eq_ok.1 h
    obtain ⟨hnew, h⟩ := ensure_bind_eq_ok.1 h
    refine .inl ⟨name, hname, hidentifier, ?_, (pure_eq_ok.1 h).symm⟩
    exact NameSet.not_mem_of_contains (Bool.not_eq_true' _ ▸ hnew)
  · rename_i hname
    cases h
    exact .inr ⟨hname, rfl⟩

/-- The labels of a definition are all different, and are the ones that are collected. -/
theorem foldlM_addLocal {lines : List Line} {locals locals' : NameSet}
    (h : lines.foldlM addLocal locals = .ok locals') :
    (Line.declared lines).Nodup ∧ (∀ x ∈ Line.declared lines, x ∉ locals) ∧
      ∀ x, x ∈ locals' ↔ x ∈ locals ∨ x ∈ Line.declared lines := by
  induction lines generalizing locals with
  | nil =>
    cases h
    simp
  | cons line rest ih =>
    rw [List.foldlM_cons, bind_eq_ok] at h
    obtain ⟨locals₁, hline, h⟩ := h
    obtain ⟨hnd, hout, hmem⟩ := ih h
    rcases addLocal_eq_ok hline with ⟨name, hname, -, hnew, rfl⟩ | ⟨hname, rfl⟩
    · rw [Line.declared_cons_label rest hname]
      refine ⟨?_, ?_, ?_⟩
      · refine List.nodup_cons.2 ⟨fun hx => hout name hx (NameSet.mem_insert_name.2 (.inl rfl)), hnd⟩
      · intro x hx
        rcases List.mem_cons.1 hx with rfl | hx
        · exact hnew
        · exact fun hl => hout x hx (NameSet.mem_insert_name.2 (.inr hl))
      · intro x
        rw [hmem, NameSet.mem_insert_name, List.mem_cons, eq_comm]
        tauto
    · rw [Line.declared_cons_of_ne rest hname]
      exact ⟨hnd, hout, hmem⟩

theorem isIdentifier_of_addLocals {lines : List Line} {locals : NameSet}
    (h : lines.foldlM addLocal ∅ = .ok locals) : ∀ x ∈ locals, isIdentifier x.toList = true := by
  refine foldlM_keeps (fun (locals : NameSet) _ => ∀ x ∈ locals, isIdentifier x.toList = true) ?_ (by simp) h
  intro locals line rest locals' hlocals hline x hx
  rcases addLocal_eq_ok hline with ⟨name, -, hname, -, rfl⟩ | ⟨-, rfl⟩
  · rcases NameSet.mem_insert_name.1 hx with rfl | hx
    · exact hname
    · exact hlocals x hx
  · exact hlocals x hx

/-- **All that a line of a definition does**: a label or an instruction goes to the body as it stands, a call with
its expansion, whose labels become labels of the definition. -/
theorem Draft.step_eq_ok_iff {b : Block} {params : Nat} {d d' : Draft} {line : Line} :
    d.step b params line = .ok d' ↔
    (line.statement = .blank ∧ d' = d) ∨
      (∃ name, line.statement = .label name ∧ d' = { d with body := d.body.push line }) ∨
      (∃ ops, line.statement = .instruction ops ∧
        (Scope.definition params d.locals).checkInstruction d.symbols.labels ops = .ok () ∧
        d' = { d with body := d.body.push line }) ∨
      ∃ name args lines symbols, line.statement = .call name args ∧
        (Scope.definition params d.locals).checkCall d.symbols name args = .ok () ∧
        d.symbols.expand (.definition params d.locals) line name args = .ok (lines, symbols) ∧
        d' = ⟨symbols, d.body ++ lines, d.dependencies.insert name,
          d.locals.insertMany (Line.declared lines)⟩ := by
  unfold Draft.step
  cases hl : line.statement with
  | blank => simp [eq_comm]
  | label name => simp [eq_comm]
  | instruction ops => simp [-bind_pure_comp, check_bind_eq_ok, pure_eq_ok, eq_comm (b := d')]
  | call name args =>
    simp only
    rw [check_bind_eq_ok, mapError_eq_ok, bind_eq_ok]
    simp [pure_eq_ok, eq_comm (b := d')]
  | importing => simp
  | opening name params => simp
  | closing => simp
  | directive => simp

theorem Draft.step_eq_ok {b : Block} {params : Nat} {d d' : Draft} {line : Line}
    (h : d.step b params line = .ok d') : (line.statement = .blank ∧ d' = d) ∨
      (∃ name, line.statement = .label name ∧ d' = { d with body := d.body.push line }) ∨
      (∃ ops, line.statement = .instruction ops ∧
        (Scope.definition params d.locals).checkInstruction d.symbols.labels ops = .ok () ∧
        d' = { d with body := d.body.push line }) ∨
      ∃ name args lines symbols, line.statement = .call name args ∧
        d.symbols.expand (.definition params d.locals) line name args = .ok (lines, symbols) ∧
        d' = ⟨symbols, d.body ++ lines, d.dependencies.insert name,
          d.locals.insertMany (Line.declared lines)⟩ := by
  rcases Draft.step_eq_ok_iff.1 h with h | h | h | ⟨name, args, lines, symbols, hl, -, he, hd⟩
  · exact .inl h
  · exact .inr (.inl h)
  · exact .inr (.inr (.inl h))
  · exact .inr (.inr (.inr ⟨name, args, lines, symbols, hl, he, hd⟩))

/-- The lines of a definition change nothing of the symbols but counters. -/
theorem Draft.sameCode_step {b : Block} {params : Nat} {d d' : Draft} {line : Line}
    (h : d.step b params line = .ok d') :
    d.symbols.macros.SameCode d'.symbols.macros ∧ d'.symbols.labels = d.symbols.labels := by
  rcases Draft.step_eq_ok h with ⟨-, rfl⟩ | ⟨name, -, rfl⟩ | ⟨ops, -, -, rfl⟩ |
    ⟨name, args, lines, symbols, -, he, rfl⟩
  · exact ⟨.refl _, rfl⟩
  · exact ⟨.refl _, rfl⟩
  · exact ⟨.refl _, rfl⟩
  · obtain ⟨m, -, -, -, rfl⟩ := Symbols.expand_eq_ok_iff.1 he
    exact ⟨Scope.sameCode_countCall _ _ _ _, rfl⟩

theorem Draft.sameCode_foldlM {b : Block} {params : Nat} {d d' : Draft} {lines : List Line}
    (h : lines.foldlM (Draft.step b params) d = .ok d') :
    d.symbols.macros.SameCode d'.symbols.macros ∧ d'.symbols.labels = d.symbols.labels := by
  refine foldlM_keeps (fun (e : Draft) _ => d.symbols.macros.SameCode e.symbols.macros ∧
    e.symbols.labels = d.symbols.labels) ?_ ⟨.refl _, rfl⟩ h
  rintro e line - e' ⟨hcode, hlabels⟩ hstep
  obtain ⟨hcode', hlabels'⟩ := Draft.sameCode_step hstep
  exact ⟨hcode.trans hcode', hlabels'.trans hlabels⟩

/-- A definition that is read up to the lines `rest`. -/
structure Draft.Sound (labels : LabelTable) (d : Draft) (rest : List Line) : Prop extends
    Progress d.symbols.macros (· ∈ d.locals) d.body.toList rest where
  labels_eq : d.symbols.labels = labels

namespace Draft.Sound

variable {labels : LabelTable} {b : Block} {params : Nat} {d d' : Draft} {line : Line} {rest : List Line}

/-- A label or an instruction goes to the body. -/
theorem push (h : d.Sound labels (line :: rest)) (hl : line.IsCode) :
    Draft.Sound labels { d with body := d.body.push line } rest := by
  refine ⟨?_, h.labels_eq⟩
  rw [Array.toList_push]
  exact h.toProgress.keep hl

/-- An expanded call goes to the body, with its labels. -/
theorem append {name : String} {args : List Operand} {lines : List Line} {symbols : Symbols}
    {dependencies : NameSet} (h : d.Sound labels (line :: rest)) (hl : line.statement = .call name args)
    (he : d.symbols.expand (.definition params d.locals) line name args = .ok (lines, symbols)) :
    Draft.Sound labels
      ⟨symbols, d.body ++ lines, dependencies, d.locals.insertMany (Line.declared lines)⟩ rest := by
  have hcall := h.toProgress.call hl he fun x hx => NameSet.not_mem_of_contains hx
  obtain ⟨m, -, -, -, rfl⟩ := Symbols.expand_eq_ok_iff.1 he
  refine ⟨?_, h.labels_eq⟩
  have hbody : (d.body ++ lines).toList = d.body.toList ++ lines := by simp
  rw [hbody]
  refine hcall.congr fun x => ?_
  rw [NameSet.mem_insertMany_names]

/-- **Step**: one more line of a definition. -/
theorem step (h : d.Sound labels (line :: rest)) (hd : d.step b params line = .ok d') : d'.Sound labels rest := by
  rcases Draft.step_eq_ok hd with ⟨hl, rfl⟩ | ⟨name, hl, rfl⟩ | ⟨ops, hl, -, rfl⟩ |
    ⟨name, args, lines, symbols, hl, he, rfl⟩
  · exact ⟨h.toProgress.skip (by simp [hl]), h.labels_eq⟩
  · exact h.push (.inl ⟨name, hl⟩)
  · exact h.push (.inr ⟨ops, hl⟩)
  · exact h.append hl he

/-- Nothing of a definition is read, and its labels are collected. -/
theorem start {s : Symbols} {locals : NameSet} (hs : s.macros.All Macro.WellFormed) (hb : ∀ l ∈ b.body, l.InRange)
    (hlocals : b.body.foldlM addLocal ∅ = .ok locals) : Draft.Sound s.labels { symbols := s, locals } b.body := by
  obtain ⟨hnd, -, hmem⟩ := foldlM_addLocal hlocals
  refine ⟨⟨hs, by simp, by simp, hb, by simpa using hnd, fun x => ?_⟩, rfl⟩
  simp [hmem]

/-- All of a definition is read. -/
theorem wellFormed (h : d.Sound labels []) :
    Macro.WellFormed ⟨params, d.body.toList, d.dependencies, d.locals, 0, 0⟩ := by
  refine ⟨h.isCode, h.inRange, by simpa using h.nodup, fun name => ?_⟩
  simpa using h.mem_known name

end Draft.Sound

end Block

theorem Block.checkName_eq_ok_iff {b : Block} {t : MacroTable} :
    b.checkName t = .ok () ↔ isIdentifier b.name.toList = true ∧ b.name ≠ mnemonic ∧ b.name ∉ t := by
  unfold Block.checkName
  rw [ensure_bind_eq_ok, ensure_bind_eq_ok, ensure_eq_ok_iff, bne_iff_ne, Bool.not_eq_true', ← Bool.not_eq_true,
    Std.ExtTreeMap.contains_iff_mem]

theorem Block.notMem_of_checkName {b : Block} {t : MacroTable} (h : b.checkName t = .ok ()) : b.name ∉ t :=
  (Block.checkName_eq_ok_iff.1 h).2.2

/-- **All that a definition does**: it adds one record to the table, whose body and local labels are those of the
draft. -/
theorem Symbols.define_eq_ok_iff {s s' : Symbols} {b : Block} : s.define b = .ok s' ↔
    ∃ params locals d, b.checkName s.macros = .ok () ∧ b.paramCount = .ok params ∧ b.checkCalls = .ok () ∧
      b.body.foldlM Block.addLocal ∅ = .ok locals ∧
      b.body.foldlM (Block.Draft.step b params) { symbols := s, locals } = .ok d ∧
      s' = ⟨d.symbols.labels,
        d.symbols.macros.insert b.name ⟨params, d.body.toList, d.dependencies, d.locals, 0, 0⟩⟩ := by
  unfold Symbols.define
  constructor
  · intro h
    obtain ⟨⟨⟩, hname, h⟩ := bind_eq_ok.1 h
    obtain ⟨params, hparams, h⟩ := bind_eq_ok.1 h
    obtain ⟨⟨⟩, hcalls, h⟩ := bind_eq_ok.1 h
    obtain ⟨locals, hlocals, h⟩ := bind_eq_ok.1 h
    obtain ⟨d, hd, h⟩ := bind_eq_ok.1 h
    exact ⟨params, locals, d, hname, hparams, hcalls, hlocals, hd, (pure_eq_ok.1 h).symm⟩
  · rintro ⟨params, locals, d, hname, hparams, hcalls, hlocals, hd, rfl⟩
    exact bind_eq_ok.2 ⟨(), hname, bind_eq_ok.2 ⟨params, hparams,
      bind_eq_ok.2 ⟨(), hcalls, bind_eq_ok.2 ⟨locals, hlocals,
      bind_eq_ok.2 ⟨d, hd, rfl⟩⟩⟩⟩⟩

/-- The name of a definition is new. -/
theorem Symbols.define_eq_ok {s s' : Symbols} {b : Block} (h : s.define b = .ok s') :
    ∃ params locals d, b.name ∉ s.macros ∧ b.body.foldlM Block.addLocal ∅ = .ok locals ∧
      b.body.foldlM (Block.Draft.step b params) { symbols := s, locals } = .ok d ∧
      s' = ⟨d.symbols.labels,
        d.symbols.macros.insert b.name ⟨params, d.body.toList, d.dependencies, d.locals, 0, 0⟩⟩ := by
  obtain ⟨params, locals, d, hname, -, -, hlocals, hd, hs'⟩ := Symbols.define_eq_ok_iff.1 h
  exact ⟨params, locals, d, Block.notMem_of_checkName hname, hlocals, hd, hs'⟩

/-- **A definition keeps a table well-formed**, and touches no label of the program. -/
theorem Symbols.define_wellFormed {s s' : Symbols} {b : Block} (hs : s.macros.All Macro.WellFormed)
    (hb : ∀ l ∈ b.body, l.InRange) (h : s.define b = .ok s') :
    s'.macros.All Macro.WellFormed ∧ s'.labels = s.labels := by
  obtain ⟨params, locals, d, -, hlocals, hd, rfl⟩ := Symbols.define_eq_ok h
  have hsound := foldlM_keeps (Block.Draft.Sound s.labels) (fun _ _ _ _ hd hstep => hd.step hstep)
    (Block.Draft.Sound.start hs hb hlocals) hd
  exact ⟨MacroTable.All.insert hsound.macros b.name hsound.wellFormed, hsound.labels_eq⟩

theorem Symbols.labels_define {s s' : Symbols} {b : Block} (h : s.define b = .ok s') : s'.labels = s.labels := by
  obtain ⟨params, locals, d, -, -, hd, rfl⟩ := Symbols.define_eq_ok h
  exact (Block.Draft.sameCode_foldlM hd).2

/-- A definition keeps the records that are there. -/
theorem Symbols.extends_define {s s' : Symbols} {b : Block} (h : s.define b = .ok s') :
    s.macros.Extends s'.macros := by
  obtain ⟨params, locals, d, hname, -, hd, rfl⟩ := Symbols.define_eq_ok h
  exact (Block.Draft.sameCode_foldlM hd).1.extends.insert hname _

theorem Symbols.mem_define {s s' : Symbols} {b : Block} (h : s.define b = .ok s') {k : String} :
    k ∈ s'.macros ↔ b.name = k ∨ k ∈ s.macros := by
  obtain ⟨params, locals, d, -, -, hd, rfl⟩ := Symbols.define_eq_ok h
  have hcode := (Block.Draft.sameCode_foldlM hd).1
  rw [mem_insert_name]
  exact or_congr_right ⟨hcode.symm.extends.mem, hcode.extends.mem⟩

/-- The names of a table are those that were there, and those of the definitions. -/
theorem Symbols.mem_defineAll {s s' : Symbols} {blocks : List Block} (h : blocks.foldlM Symbols.define s = .ok s')
    {k : String} : k ∈ s'.macros ↔ k ∈ s.macros ∨ ∃ b ∈ blocks, b.name = k := by
  induction blocks generalizing s with
  | nil =>
    cases h
    simp
  | cons b blocks ih =>
    rw [List.foldlM_cons, bind_eq_ok] at h
    obtain ⟨s₁, hs₁, h⟩ := h
    rw [ih h, Symbols.mem_define hs₁, List.exists_mem_cons_iff]
    tauto

/-- **Run**: what a definition keeps, definitions one after the other keep. -/
theorem Symbols.foldlM_define_keeps {P : Symbols → Prop} {blocks : List Block}
    (hdefine : ∀ s s' b, P s → b ∈ blocks → s.define b = .ok s' → P s') {s s' : Symbols} (hs : P s)
    (h : blocks.foldlM Symbols.define s = .ok s') : P s' := by
  have hrun := foldlM_keeps (fun (t : Symbols) (rest : List Block) => P t ∧ ∀ b ∈ rest, b ∈ blocks)
    (fun t b rest t' ht hstep => ⟨hdefine t t' b ht.1 (ht.2 b List.mem_cons_self) hstep,
      fun b' hb' => ht.2 b' (List.mem_cons_of_mem _ hb')⟩) ⟨hs, fun _ hb => hb⟩ h
  exact hrun.1

theorem Symbols.defineAll_wellFormed {blocks : List Block} {s s' : Symbols} (hs : s.macros.All Macro.WellFormed)
    (hb : ∀ b ∈ blocks, ∀ l ∈ b.body, l.InRange) (h : blocks.foldlM Symbols.define s = .ok s') :
    s'.macros.All Macro.WellFormed ∧ s'.labels = s.labels := by
  refine Symbols.foldlM_define_keeps (P := fun t => t.macros.All Macro.WellFormed ∧ t.labels = s.labels) ?_
    ⟨hs, rfl⟩ h
  rintro t t' b ⟨hwf, hlabels⟩ hmem hstep
  obtain ⟨hwf', hlabels'⟩ := Symbols.define_wellFormed hwf (hb b hmem) hstep
  exact ⟨hwf', hlabels'.trans hlabels⟩

end Abcout
