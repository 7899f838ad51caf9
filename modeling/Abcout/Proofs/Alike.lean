import Mathlib.Data.Option.Basic
import Abcout.Proofs.Assembly
import Abcout.Proofs.Inlining
import Abcout.Proofs.Templates

/-!
# Abcout.Proofs.Alike — passes over lines that say the same

After reading, the text of a line and its place are used for faults and warnings only.  Two lists of lines are
`Alike` when they say the same line by line; two macro tables are, when their records are the same up to such
bodies.

* `Symbols.expandAll_alike`: a program that is expanded with alike tables gives alike lines.
* `Symbols.Carries`: a line can be used with other symbols as well.  `Symbols.define_of_carries` makes a definition
  of such lines in both.
* `Symbols.defineAll_detached`: definitions that do without the labels of the program can be made where there are
  none, and give alike tables.
* `Assembly.layOut_alike`: alike streams have one product.
-/

namespace Abcout

/-! ## Lines -/

namespace Line

/-- Lines that say the same. -/
def Alike (xs ys : List Line) : Prop := List.Forall₂ (fun x y => x.statement = y.statement) xs ys

/-- A label is an operand of one of some lines. -/
def Mentions (lines : List Line) (x : String) : Prop := ∃ l ∈ lines, .label x ∈ l.statement.operands

instance (lines : List Line) (x : String) : Decidable (Mentions lines x) :=
  inferInstanceAs (Decidable (∃ l ∈ lines, .label x ∈ l.statement.operands))

variable {xs ys xs' ys' : List Line}

theorem alike_iff : Alike xs ys ↔ xs.map statement = ys.map statement := by
  rw [Alike, ← List.forall₂_eq_eq_eq, List.forall₂_map_left_iff, List.forall₂_map_right_iff]

theorem Alike.symm (h : Alike xs ys) : Alike ys xs := alike_iff.2 (alike_iff.1 h).symm

theorem Alike.exists_of_mem (h : Alike xs ys) {y : Line} (hy : y ∈ ys) : ∃ x ∈ xs, x.statement = y.statement := by
  have hmem : y.statement ∈ xs.map statement := alike_iff.1 h ▸ List.mem_map_of_mem hy
  exact List.mem_map.1 hmem

theorem Alike.append (h : Alike xs ys) (h' : Alike xs' ys') : Alike (xs ++ xs') (ys ++ ys') :=
  List.rel_append h h'

theorem Alike.declared (h : Alike xs ys) : Line.declared ys = Line.declared xs := by
  induction h with
  | nil => rfl
  | cons hxy _ ih => simp only [Line.declared, List.filterMap_cons, ← hxy] at ih ⊢; rw [ih]

theorem Alike.instructions (h : Alike xs ys) : Line.instructions ys = Line.instructions xs := by
  induction h with
  | nil => rfl
  | cons hxy _ ih => simp only [Line.instructions, List.filterMap_cons, ← hxy] at ih ⊢; rw [ih]

theorem Alike.position? (h : Alike xs ys) (name : String) : Line.position? name ys = Line.position? name xs := by
  induction h with
  | nil => rfl
  | cons hxy _ ih => rw [Line.position?, Line.position?, ← hxy, ih]

end Line

theorem Scope.accepts_congr (scope : Scope) (labels : LabelTable) {l l' : Line} (h : l.statement = l'.statement) :
    scope.accepts labels l = scope.accepts labels l' := by
  unfold Scope.accepts
  rw [h]

theorem Line.Alike.inRange {xs ys : List Line} (h : Line.Alike xs ys) (hxs : ∀ l ∈ xs, l.InRange) :
    ∀ l ∈ ys, l.InRange := by
  intro l' hl'
  obtain ⟨l, hl, hstmt⟩ := h.exists_of_mem hl'
  unfold Line.InRange
  rw [← hstmt]
  exact hxs l hl

/-! ## Tables -/

/-- Records that are the same up to alike bodies. -/
def Macro.Alike (m m' : Macro) : Prop := Line.Alike m.body m'.body ∧ m' = { m with body := m'.body }

theorem Macro.Alike.instantiate {m m' : Macro} (h : m.Alike m') (args : List Operand) (r : Renaming)
    (site site' : Line) : Line.Alike (m.instantiate args r site) (m'.instantiate args r site') := by
  unfold Line.Alike Macro.instantiate
  rw [List.forall₂_map_left_iff, List.forall₂_map_right_iff]
  exact h.1.imp fun l l' hl => congrArg (Statement.substitute args r) hl

/-- Tables whose records are alike, name by name. -/
def MacroTable.Alike (t t' : MacroTable) : Prop := ∀ k : String, Option.Rel Macro.Alike t[k]? t'[k]?

namespace MacroTable.Alike

variable {t t' : MacroTable} {name : String} {m m' : Macro}

theorem empty : MacroTable.Alike ∅ ∅ := by
  intro k
  simp

theorem exists_of_getElem? (h : t.Alike t') (hm : t[name]? = some m) : ∃ m', t'[name]? = some m' ∧ m.Alike m' := by
  have hk := h name
  rw [hm] at hk
  generalize t'[name]? = o at hk ⊢
  cases hk with
  | some hm' => exact ⟨_, rfl, hm'⟩

theorem contains_eq (h : t.Alike t') (name : String) : t'.contains name = t.contains name := by
  rw [Std.ExtTreeMap.contains_eq_isSome_getElem?, Std.ExtTreeMap.contains_eq_isSome_getElem?]
  have hname := h name
  generalize t[name]? = o, t'[name]? = o' at hname ⊢
  cases hname with
  | some _ => rfl
  | none => rfl

theorem insert (h : t.Alike t') (hm : m.Alike m') : MacroTable.Alike (t.insert name m) (t'.insert name m') := by
  intro k
  rw [getElem?_insert_name, getElem?_insert_name]
  by_cases hk : name = k
  · rw [if_pos hk, if_pos hk]
    exact .some hm
  · rw [if_neg hk, if_neg hk]
    exact h k

theorem modify (h : t.Alike t') {f : Macro → Macro} (hf : ∀ m m' : Macro, m.Alike m' → (f m).Alike (f m'))
    (name : String) : MacroTable.Alike (t.modify name f) (t'.modify name f) := by
  intro k
  rw [Std.ExtTreeMap.getElem?_modify, Std.ExtTreeMap.getElem?_modify]
  split_ifs
  · have hname := h name
    generalize t[name]? = o, t'[name]? = o' at hname ⊢
    cases hname with
    | some hm => exact .some (hf _ _ hm)
    | none => exact .none
  · exact h k

theorem foldl_modify (names : List String) (h : t.Alike t') {f : Macro → Macro}
    (hf : ∀ m m' : Macro, m.Alike m' → (f m).Alike (f m')) :
    MacroTable.Alike (names.foldl (fun t name => t.modify name f) t)
      (names.foldl (fun t name => t.modify name f) t') := by
  induction names generalizing t t' with
  | nil => exact h
  | cons name names ih => exact ih (h.modify hf name)

theorem countCall (h : t.Alike t') (hm : m.Alike m') (scope : Scope) (name : String) :
    MacroTable.Alike (scope.countCall t name m) (scope.countCall t' name m') := by
  have hcounted : ∀ m m' : Macro, m.Alike m' → m.counted.Alike m'.counted := by
    intro m m' hm
    rw [hm.2]
    exact ⟨hm.1, rfl⟩
  have htop : ∀ m m' : Macro, m.Alike m' → m.countedTopLevel.Alike m'.countedTopLevel := by
    intro m m' hm
    rw [hm.2]
    exact ⟨hm.1, rfl⟩
  cases scope with
  | program =>
    have hdeps : m'.dependencies = m.dependencies := by rw [hm.2]
    unfold Scope.countCall
    rw [hdeps]
    exact (h.modify htop name).foldl_modify _ hcounted
  | definition params locals => exact h.modify hcounted name

end MacroTable.Alike

/-! ## Calls -/

namespace Symbols

variable {s s' t : Symbols} {scope : Scope} {site : Line} {name : String} {args : List Operand} {lines : List Line}

/-- A call in alike tables, if it gets the same names and its lines are accepted. -/
theorem expand_alike (site' : Line) (hs : s.macros.Alike s'.macros)
    (hfresh : ∀ m, scope.freshNames s'.labels name m = scope.freshNames s.labels name m)
    (h : s.expand scope site name args = .ok (lines, t))
    (haccept : ∀ l ∈ lines, (scope.withLocals (Line.declared lines)).accepts
      (scope.declare s'.labels (Line.declared lines)) l = true) :
    ∃ lines' t', s'.expand scope site' name args = .ok (lines', t') ∧ Line.Alike lines lines' ∧
      t.macros.Alike t'.macros ∧ t'.labels = scope.declare s'.labels (Line.declared lines) := by
  obtain ⟨m, hm, hlines, -, rfl⟩ := expand_eq_ok_iff.1 h
  obtain ⟨m', hm', halike⟩ := hs.exists_of_getElem? hm
  have hnames : scope.freshNames s'.labels name m' = scope.freshNames s.labels name m := by
    rw [halike.2, ← hfresh m]
    cases scope <;> rfl
  have hbody := halike.instantiate args (scope.freshNames s.labels name m) site site'
  rw [← hlines] at hbody
  refine ⟨_, _, expand_eq_ok_iff.2 ⟨m', hm', rfl, ?_, rfl⟩, hnames ▸ hbody, hs.countCall halike scope name, ?_⟩
  · rw [hnames, hbody.declared]
    intro l' hl'
    obtain ⟨l, hl, hstmt⟩ := hbody.exists_of_mem hl'
    rw [← Scope.accepts_congr _ _ hstmt]
    exact haccept l hl
  · show scope.declare s'.labels _ = _
    rw [hnames, hbody.declared]

/-- Symbols with the same labels and alike tables. -/
structure Alike (s s' : Symbols) : Prop where
  labels : s'.labels = s.labels
  macros : s.macros.Alike s'.macros

theorem Alike.expand (hs : s.Alike s') (site' : Line) (h : s.expand scope site name args = .ok (lines, t)) :
    ∃ lines' t', s'.expand scope site' name args = .ok (lines', t') ∧ Line.Alike lines lines' ∧ t.Alike t' := by
  obtain ⟨m, -, -, haccept, rfl⟩ := expand_eq_ok_iff.1 h
  obtain ⟨lines', t', h', hlines, hmacros, hlabels⟩ :=
    expand_alike site' hs.macros (fun m => by rw [hs.labels]) h (hs.labels ▸ haccept)
  exact ⟨lines', t', h', hlines, by rw [hlabels, hs.labels], hmacros⟩

theorem Alike.checkCall (hs : s.Alike s') (h : scope.checkCall s name args = .ok ()) :
    scope.checkCall s' name args = .ok () := by
  obtain ⟨hname, hargs, m, hm, hlen⟩ := Scope.checkCall_eq_ok_iff.1 h
  obtain ⟨m', hm', halike⟩ := hs.macros.exists_of_getElem? hm
  exact Scope.checkCall_eq_ok_iff.2 ⟨hname, hs.labels ▸ hargs, m', hm', by rw [halike.2, hlen]⟩

/-- What `scope` allows a line with the symbols `s` it allows with `s'`, and a call expands to lines that say the
same. -/
structure Carries (scope : Scope) (s s' : Symbols) (line line' : Line) : Prop where
  instruction : ∀ ops, line.statement = .instruction ops → scope.checkInstruction s.labels ops = .ok () →
    scope.checkInstruction s'.labels ops = .ok ()
  call : ∀ name args lines t, line.statement = .call name args → scope.checkCall s name args = .ok () →
    s.expand scope line name args = .ok (lines, t) → scope.checkCall s' name args = .ok () ∧
      ∃ lines' t', s'.expand scope line' name args = .ok (lines', t') ∧ Line.Alike lines lines' ∧
        t.macros.Alike t'.macros

theorem Alike.carries (hs : s.Alike s') (scope : Scope) (line line' : Line) : Carries scope s s' line line' := by
  refine ⟨fun ops _ hcheck => hs.labels ▸ hcheck, fun name args lines t _ hcheck h => ⟨hs.checkCall hcheck, ?_⟩⟩
  obtain ⟨lines', t', h', hlines, ht⟩ := hs.expand line' h
  exact ⟨lines', t', h', hlines, ht.macros⟩

/-- **Step**: one line of a program. -/
theorem expandLine_alike {line line' : Line} (hs : s.Alike s') (hline : line.statement = line'.statement)
    (h : s.expandLine line = .ok (lines, t)) :
    ∃ lines' t', s'.expandLine line' = .ok (lines', t') ∧ Line.Alike lines lines' ∧ t.Alike t' := by
  unfold expandLine at h ⊢
  rw [← hline]
  split at h
  · cases h
    exact ⟨[], s', rfl, .nil, hs⟩
  · cases h
    exact ⟨[], s', rfl, .nil, hs⟩
  · cases h
    exact ⟨[line'], s', rfl, .cons hline .nil, hs⟩
  · obtain ⟨hcheck, h⟩ := check_bind_eq_ok.1 h
    rw [mapError_eq_ok] at hcheck
    cases h
    exact ⟨[line'], s', check_bind_eq_ok.2 ⟨mapError_eq_ok.2 (hs.labels ▸ hcheck), rfl⟩, .cons hline .nil, hs⟩
  · obtain ⟨hcheck, h⟩ := check_bind_eq_ok.1 h
    rw [mapError_eq_ok] at hcheck
    obtain ⟨lines', t', h', hlines, ht⟩ := hs.expand line' h
    exact ⟨lines', t', check_bind_eq_ok.2 ⟨mapError_eq_ok.2 (hs.checkCall hcheck), h'⟩, hlines, ht⟩
  · cases h
  · cases h
  · cases h

/-- **Run**: a program with alike tables. -/
theorem expandAll_alike {program program' : List Line} (hs : s.Alike s') (hprogram : Line.Alike program program')
    (h : s.expandAll program = .ok (lines, t)) :
    ∃ lines' t', s'.expandAll program' = .ok (lines', t') ∧ Line.Alike lines lines' ∧ t.Alike t' := by
  induction hprogram generalizing s s' lines with
  | nil =>
    cases h
    exact ⟨[], s', rfl, .nil, hs⟩
  | cons hline _ ih =>
    obtain ⟨now, s₁, later, hnow, hlater, rfl⟩ := expandAll_cons_eq_ok.1 h
    obtain ⟨now', s₁', hnow', halike, hs₁⟩ := expandLine_alike hs hline hnow
    obtain ⟨later', t', hlater', halike', ht⟩ := ih hs₁ hlater
    exact ⟨now' ++ later', t', expandAll_cons_eq_ok.2 ⟨now', s₁', later', hnow', hlater', rfl⟩,
      halike.append halike', ht⟩

end Symbols

/-! ## Definitions -/

theorem Macro.Closed.of_alike {m m' : Macro} (hm' : m'.Closed) (h : m.Alike m') : m.Closed := by
  have hlocals : m'.locals = m.locals := by rw [h.2]
  have hparams : m'.params = m.params := by rw [h.2]
  obtain ⟨⟨hcode, hrange, hnodup, hmem⟩, htemplate⟩ := hm'
  rw [h.1.declared, hlocals] at hmem
  rw [h.1.instructions, hlocals, hparams] at htemplate
  refine ⟨⟨fun l hl => ?_, h.1.symm.inRange hrange, h.1.declared ▸ hnodup, hmem⟩, htemplate⟩
  obtain ⟨l', hl', hstmt⟩ := h.1.symm.exists_of_mem hl
  unfold Line.IsCode
  rw [← hstmt]
  exact hcode l' hl'

/-- The labels of a body are local, or free. -/
theorem Macro.Proper.known_of_operand {free : String → Prop} {m : Macro} (hm : m.Proper free) {l : Line}
    (hl : l ∈ m.body) {x : String} (hx : .label x ∈ l.statement.operands) : x ∈ m.locals ∨ free x := by
  rcases hm.isCode l hl with ⟨name, hname⟩ | ⟨ops, hops⟩
  · simp [Statement.operands, hname] at hx
  · rw [hops] at hx
    have hinstr : ops ∈ Line.instructions m.body := List.mem_filterMap.2 ⟨l, hl, by rw [hops]⟩
    exact (hm.template ops hinstr).known_of_mem hx

theorem Macro.Closed.mem_locals_of_operand {m : Macro} (hm : m.Closed) {l : Line} (hl : l ∈ m.body) {x : String}
    (hx : .label x ∈ l.statement.operands) : x ∈ m.locals :=
  (Macro.Proper.known_of_operand hm hl hx).resolve_right id

/-- A label in an expansion is an argument, or is declared there, or was free in the body. -/
theorem Macro.Proper.label_of_instantiate {free : String → Prop} {m : Macro} (hm : m.Proper free)
    {args : List Operand} {r : Renaming} {site l : Line} (hl : l ∈ m.instantiate args r site) {x : String}
    (hx : .label x ∈ l.statement.operands) :
    .label x ∈ args ∨ x ∈ Line.declared (m.instantiate args r site) ∨
      ∃ y, y ∉ m.locals ∧ free y ∧ r.apply y = x := by
  obtain ⟨l₀, hl₀, rfl⟩ := List.mem_map.1 hl
  rcases hm.isCode l₀ hl₀ with ⟨name, hname⟩ | ⟨ops, hops⟩
  · simp [Line.expanded, Statement.substitute, Statement.operands, hname] at hx
  · simp only [Line.expanded, Statement.substitute, Statement.operands, hops] at hx
    obtain ⟨op, hop, he⟩ := List.mem_map.1 hx
    cases op with
    | number n => cases he
    | label y =>
      right
      cases he
      by_cases hy : y ∈ m.locals
      · rw [declared_instantiate]
        exact .inl (List.mem_map_of_mem ((hm.mem_locals y).1 hy))
      · have hknown := hm.known_of_operand hl₀ (by rw [hops]; exact hop)
        exact .inr ⟨y, hy, hknown.resolve_left hy, rfl⟩
    | param i =>
      left
      cases hi : args[i]? with
      | none => simp [Operand.substitute, hi] at he
      | some arg =>
        simp only [Operand.substitute, hi, Option.getD_some] at he
        exact he ▸ List.mem_of_getElem? hi

theorem Macro.Closed.label_of_instantiate {m : Macro} (hm : m.Closed) {args : List Operand}
    {r : Renaming} {site l : Line} (hl : l ∈ m.instantiate args r site) {x : String}
    (hx : .label x ∈ l.statement.operands) : .label x ∈ args ∨ x ∈ Line.declared (m.instantiate args r site) := by
  rcases Macro.Proper.label_of_instantiate hm hl hx with harg | hdecl | ⟨_, _, hfree, _⟩
  · exact .inl harg
  · exact .inr hdecl
  · exact hfree.elim

/-- All records of the first of two alike tables are closed, if those of the second are. -/
theorem MacroTable.Alike.closed {t t' : MacroTable} (h : t.Alike t') (ht' : t'.All Macro.Closed) :
    t.All Macro.Closed := by
  intro k m hm
  obtain ⟨m', hm', hmm'⟩ := h.exists_of_getElem? hm
  exact (ht' k m' hm').of_alike hmm'

section Detached

variable {s s' t : Symbols} {params : Nat} {locals : NameSet} {site : Line} {name : String} {args : List Operand}
  {lines : List Line}

/-- A call in a definition may be made where other labels of the program are known, if none is among its
arguments. -/
theorem Scope.checkCall_detached (hs : s.macros.Alike s'.macros)
    (hargs : ∀ x, .label x ∈ args → x ∈ s.labels → x ∈ locals)
    (h : (definition params locals).checkCall s name args = .ok ()) :
    (definition params locals).checkCall s' name args = .ok () := by
  obtain ⟨hname, hchecked, m, hm, hlen⟩ := checkCall_eq_ok_iff.1 h
  obtain ⟨m', hm', hmm'⟩ := hs.exists_of_getElem? hm
  refine checkCall_eq_ok_iff.2 ⟨hname, fun arg harg => ?_, m', hm', by rw [hmm'.2, hlen]⟩
  have harg' := hchecked arg harg
  cases arg with
  | number n => exact harg'
  | param i => exact harg'
  | label x =>
    have hknown : x ∈ locals ∨ x ∈ s.labels := knows_definition.1 (ensure_eq_ok_iff.1 harg')
    exact ensure_eq_ok_iff.2 (knows_definition.2 (.inl (hknown.elim id (hargs x harg))))

/-- So may its expansion, as the macros are closed. -/
theorem Symbols.expand_detached (site' : Line) (hs : s.macros.Alike s'.macros)
    (hclosed : s.macros.All Macro.Closed) (hargs : ∀ x, .label x ∈ args → x ∈ s.labels → x ∈ locals)
    (h : s.expand (.definition params locals) site name args = .ok (lines, t)) :
    ∃ lines' t', s'.expand (.definition params locals) site' name args = .ok (lines', t') ∧
      Line.Alike lines lines' ∧ t.macros.Alike t'.macros := by
  obtain ⟨m, hm, hlines, haccept, -⟩ := expand_eq_ok_iff.1 h
  have haccept' : ∀ l ∈ lines, ((Scope.definition params locals).withLocals (Line.declared lines)).accepts
      ((Scope.definition params locals).declare s'.labels (Line.declared lines)) l = true := by
    intro l hl
    refine Scope.accepts_iff.2 fun ops hops => ?_
    have hchecked := Scope.checkInstruction_of_accepts hops (haccept l hl)
    rw [Scope.withLocals, Scope.checkInstruction_definition] at hchecked ⊢
    refine hchecked.imp fun x hx hknown => .inl (hknown.elim id fun hx' => ?_)
    -- a label of the program can only have come from the arguments
    rw [NameSet.mem_insertMany_names]
    have hxl : .label x ∈ l.statement.operands := by
      rw [hops]
      exact hx
    rcases (hclosed name m hm).label_of_instantiate (hlines ▸ hl) hxl with harg | hdecl
    · exact .inl (hargs x harg hx')
    · exact .inr (hlines ▸ hdecl)
  obtain ⟨lines', t', h', halike, hmacros, -⟩ := expand_alike site' hs (fun _ => rfl) h haccept'
  exact ⟨lines', t', h', halike, hmacros⟩

/-- So may all lines of the definition that mention none of these labels. -/
theorem Symbols.carries_detached {line : Line} (line' : Line) (hs : s.macros.Alike s'.macros)
    (hclosed : s.macros.All Macro.Closed)
    (hmention : ∀ x, .label x ∈ line.statement.operands → x ∈ s.labels → x ∈ locals) :
    Carries (.definition params locals) s s' line line' := by
  constructor
  · intro ops hl hcheck
    rw [hl] at hmention
    rw [Scope.checkInstruction_definition] at hcheck ⊢
    exact hcheck.imp fun x hx hknown => .inl (hknown.elim id (hmention x hx))
  · intro name args lines t hl hcheck h
    rw [hl] at hmention
    exact ⟨Scope.checkCall_detached hs hmention hcheck, expand_detached line' hs hclosed hmention h⟩

end Detached

namespace Block

/-- Definitions that are written alike. -/
structure Alike (b b' : Block) : Prop where
  name : b'.name = b.name
  params : b'.params = b.params
  body : Line.Alike b.body b'.body

/-- Two drafts of one definition. -/
structure Draft.Alike (d d' : Draft) : Prop where
  macros : d.symbols.macros.Alike d'.symbols.macros
  body : Line.Alike d.body.toList d'.body.toList
  dependencies : d'.dependencies = d.dependencies
  locals : d'.locals = d.locals

variable {b b' : Block} {params : Nat} {d d' e : Draft} {line line' : Line}

theorem Draft.Alike.push (h : d.Alike d') (hline : line.statement = line'.statement) :
    Draft.Alike { d with body := d.body.push line } { d' with body := d'.body.push line' } := by
  refine ⟨h.macros, ?_, h.dependencies, h.locals⟩
  rw [Array.toList_push, Array.toList_push]
  exact h.body.append (.cons hline .nil)

/-- **Step**: one more line of a definition. -/
theorem Draft.Alike.step (b' : Block) (hd : d.Alike d') (hline : line.statement = line'.statement)
    (hcarries : Symbols.Carries (.definition params d.locals) d.symbols d'.symbols line line')
    (h : d.step b params line = .ok e) : ∃ e', d'.step b' params line' = .ok e' ∧ e.Alike e' := by
  rw [← hd.locals] at hcarries
  rcases step_eq_ok_iff.1 h with ⟨hl, rfl⟩ | ⟨name, hl, rfl⟩ | ⟨ops, hl, hcheck, rfl⟩ |
    ⟨name, args, lines, symbols, hl, hcheck, he, rfl⟩
  · exact ⟨d', step_eq_ok_iff.2 (.inl ⟨hline ▸ hl, rfl⟩), hd⟩
  · exact ⟨_, step_eq_ok_iff.2 (.inr (.inl ⟨name, hline ▸ hl, rfl⟩)), hd.push hline⟩
  · rw [← hd.locals] at hcheck
    have hcheck' := hcarries.instruction ops hl hcheck
    exact ⟨_, step_eq_ok_iff.2 (.inr (.inr (.inl ⟨ops, hline ▸ hl, hcheck', rfl⟩))), hd.push hline⟩
  · rw [← hd.locals] at hcheck he
    obtain ⟨hcheck', lines', symbols', he', halike, hmacros⟩ := hcarries.call name args lines symbols hl hcheck he
    refine ⟨_, step_eq_ok_iff.2 (.inr (.inr (.inr ⟨name, args, lines', symbols', hline ▸ hl, hcheck', he', rfl⟩))),
      hmacros, ?_, by rw [hd.dependencies], by rw [hd.locals, halike.declared]⟩
    simpa using hd.body.append halike

theorem addLocal_alike {locals locals' : NameSet} (hline : line.statement = line'.statement)
    (h : addLocal locals line = .ok locals') : addLocal locals line' = .ok locals' := by
  unfold addLocal at h ⊢
  rw [← hline]
  split at h
  · simp only [ensure_bind_eq_ok] at h ⊢
    exact h
  · exact h

theorem Alike.checkName (h : b.Alike b') {t t' : MacroTable} (ht : t.Alike t') (hcheck : b.checkName t = .ok ()) :
    b'.checkName t' = .ok () := by
  unfold Block.checkName at hcheck ⊢
  rw [h.name, ht.contains_eq]
  simp only [ensure_bind_eq_ok, ensure_eq_ok_iff] at hcheck ⊢
  exact hcheck

theorem Alike.paramCount (h : b.Alike b') (hcount : b.paramCount = .ok params) : b'.paramCount = .ok params := by
  unfold Block.paramCount at hcount ⊢
  rw [h.params]
  cases hp : b.params with
  | none => simp [hp] at hcount
  | some n =>
    rw [hp] at hcount
    exact hcount

theorem checkCalls_eq_ok_iff : b.checkCalls = .ok () ↔ ∀ l ∈ b.body, b.callsItself l = false := by
  unfold checkCalls
  cases hfind : b.body.find? b.callsItself with
  | none => simpa using List.find?_eq_none.1 hfind
  | some l =>
    have hl := List.find?_some hfind
    simp only [reduceCtorEq, false_iff, not_forall]
    exact ⟨l, List.mem_of_find?_eq_some hfind, by simp [hl]⟩

theorem Alike.checkCalls (h : b.Alike b') (hcalls : b.checkCalls = .ok ()) : b'.checkCalls = .ok () := by
  rw [checkCalls_eq_ok_iff] at hcalls ⊢
  intro l' hl'
  obtain ⟨l, hl, hstmt⟩ := h.body.exists_of_mem hl'
  have hcall := hcalls l hl
  unfold callsItself at hcall ⊢
  rw [← hstmt, h.name]
  exact hcall

end Block

namespace Symbols

variable {s s' t : Symbols} {b b' : Block}

/-- **Run**: a definition that is made with other symbols.  What relates the drafts at the start, and is kept by
each line, relates the drafts that the records are made of. -/
theorem define_simulates (s' : Symbols) (R : Block.Draft → Block.Draft → Prop) (Q : Line → Line → Prop)
    (hb : b.Alike b') (hname : b'.checkName s'.macros = .ok ()) (hbody : List.Forall₂ Q b.body b'.body)
    (hstart : ∀ locals, b.body.foldlM Block.addLocal ∅ = .ok locals →
      R { symbols := s, locals } { symbols := s', locals })
    (hstep : ∀ params d d' l l' e, R d d' → Q l l' → d.step b params l = .ok e →
      ∃ e', d'.step b' params l' = .ok e' ∧ R e e')
    (h : s.define b = .ok t) : ∃ params d d', R d d' ∧
      t = { d.symbols with
        macros := d.symbols.macros.insert b.name ⟨params, d.body.toList, d.dependencies, d.locals, 0, 0⟩ } ∧
      s'.define b' = .ok { d'.symbols with
        macros := d'.symbols.macros.insert b.name
          ⟨params, d'.body.toList, d'.dependencies, d'.locals, 0, 0⟩ } := by
  obtain ⟨params, locals, d, -, hparams, hcalls, hlocals, hd, rfl⟩ := define_eq_ok_iff.1 h
  have hlocals' : b'.body.foldlM Block.addLocal ∅ = .ok locals := by
    obtain ⟨_, hfold, rfl⟩ := foldlM_simulates (· = ·) _
      (fun _ _ _ _ c e hline hstep => ⟨c, e ▸ Block.addLocal_alike hline hstep, rfl⟩) hb.body rfl hlocals
    exact hfold
  obtain ⟨d', hd', hR⟩ := foldlM_simulates R Q (hstep params) hbody (hstart locals hlocals) hd
  refine ⟨params, d, d', hR, rfl, define_eq_ok_iff.2 ⟨params, locals, d', hname, hb.paramCount hparams,
    hb.checkCalls hcalls, hlocals', hd', ?_⟩⟩
  rw [hb.name]

/-- A definition that is written alike.  `I` is what relates the symbols of its drafts, so that lines with `P` can
be carried over. -/
theorem define_of_carries (I : Block.Draft → Block.Draft → Prop) (P : Line → Prop) (hs : s.macros.Alike s'.macros)
    (hb : b.Alike b') (hbody : ∀ l ∈ b.body, P l)
    (hstart : ∀ locals, b.body.foldlM Block.addLocal ∅ = .ok locals →
      I { symbols := s, locals } { symbols := s', locals })
    (hstep : ∀ params d d' l l' e e', I d d' → d.step b params l = .ok e → d'.step b' params l' = .ok e' → I e e')
    (hcarries : ∀ params d d' l l', d.symbols.macros.Alike d'.symbols.macros → I d d' → P l →
      Carries (.definition params d.locals) d.symbols d'.symbols l l')
    (h : s.define b = .ok t) : ∃ t', s'.define b' = .ok t' ∧ t.macros.Alike t'.macros := by
  have hname : b'.checkName s'.macros = .ok () := by
    obtain ⟨-, -, -, hname, -⟩ := define_eq_ok_iff.1 h
    exact hb.checkName hs hname
  have hrun := define_simulates s' (fun d d' => d.Alike d' ∧ I d d') _ hb hname
    ((List.forall₂_and_left _ _).2 ⟨hbody, hb.body⟩)
    (fun locals hlocals => ⟨⟨hs, .nil, rfl, rfl⟩, hstart locals hlocals⟩) ?_ h
  · obtain ⟨params, d, d', ⟨hd, -⟩, rfl, hdefine⟩ := hrun
    refine ⟨_, hdefine, hd.macros.insert ⟨hd.body, ?_⟩⟩
    rw [hd.dependencies, hd.locals]
  · rintro params d d' l l' e ⟨hd, hI⟩ ⟨hl, hline⟩ he
    obtain ⟨e', he', halike⟩ := hd.step b' hline (hcarries params d d' l l' hd.macros hI hl) he
    exact ⟨e', he', halike, hstep params d d' l l' e e' hI he he'⟩

theorem define_alike (hs : s.Alike s') (hb : b.Alike b') (h : s.define b = .ok t) :
    ∃ t', s'.define b' = .ok t' ∧ t.Alike t' := by
  obtain ⟨t', ht', hmacros⟩ := define_of_carries (fun d d' => d'.symbols.labels = d.symbols.labels)
    (fun _ => True) hs.macros hb (fun _ _ => trivial) (fun _ _ => hs.labels)
    (fun params d d' l l' e e' hlabels he he' => by
      rw [(Block.Draft.sameCode_step he).2, (Block.Draft.sameCode_step he').2, hlabels])
    (fun params d d' l l' hmacros hlabels _ => Alike.carries ⟨hlabels, hmacros⟩ _ l l') h
  exact ⟨t', ht', by rw [labels_define ht', labels_define h, hs.labels], hmacros⟩

/-- A definition that mentions no label of the program can be made where other labels are known. -/
theorem define_detached (hs : s.macros.Alike s'.macros) (hclosed : s.macros.All Macro.Closed) (hb : b.Alike b')
    (hmention : ∀ x, Line.Mentions b.body x → x ∈ s.labels → x ∈ Line.declared b.body) (h : s.define b = .ok t) :
    ∃ t', s'.define b' = .ok t' ∧ t.macros.Alike t'.macros := by
  refine define_of_carries
    (fun d _ => d.symbols.macros.All Macro.Closed ∧ d.symbols.labels = s.labels ∧ d.Scoped b)
    (fun l => ∀ x, .label x ∈ l.statement.operands → x ∈ s.labels → x ∈ Line.declared b.body)
    hs hb (fun l hl x hx => hmention x ⟨l, hl, hx⟩) ?_ ?_ ?_ h
  · intro locals hlocals
    exact ⟨hclosed, rfl, .start (MacroTable.Proper.wellFormed hclosed) hlocals⟩
  · rintro params d - l - e - ⟨hclosed, hlabels, hscoped⟩ he -
    obtain ⟨hcode, hlabels'⟩ := Block.Draft.sameCode_step he
    exact ⟨MacroTable.Proper.of_sameCode hclosed hcode, hlabels'.trans hlabels, hscoped.step he⟩
  · -- a label that a line mentions is known as a label of the definition from the start
    rintro params d d' l l' hmacros ⟨hclosed, hlabels, hscoped⟩ hmentioned
    exact carries_detached l' hmacros hclosed fun x hx hx' =>
      hscoped.of_declared x (hmentioned x hx (hlabels ▸ hx'))

/-- **Run**: definitions that mention no label of the program can be made where there are no labels. -/
theorem defineAll_detached {blocks blocks' : List Block} (hs : s.macros.Alike s'.macros)
    (hclosed : s'.macros.All Macro.Closed) (hlabels : s'.labels = ∅)
    (hblocks : List.Forall₂ Block.Alike blocks blocks')
    (hmention : ∀ b ∈ blocks, ∀ x, Line.Mentions b.body x → x ∈ s.labels → x ∈ Line.declared b.body)
    (hrange : ∀ b ∈ blocks, ∀ l ∈ b.body, l.InRange) (h : blocks.foldlM Symbols.define s = .ok t) :
    ∃ t', blocks'.foldlM Symbols.define s' = .ok t' ∧ t.macros.Alike t'.macros ∧ t'.labels = ∅ := by
  have hpairs := (List.forall₂_and_left _ _).2 ⟨fun b hb => And.intro (hmention b hb) (hrange b hb), hblocks⟩
  have hrun : ∃ t', blocks'.foldlM Symbols.define s' = .ok t' ∧ t.macros.Alike t'.macros ∧
      t'.macros.All Macro.Closed ∧ t'.labels = ∅ ∧ t.labels = s.labels := by
    refine foldlM_simulates (fun t t' : Symbols => t.macros.Alike t'.macros ∧ t'.macros.All Macro.Closed ∧
      t'.labels = ∅ ∧ t.labels = s.labels) _ ?_ hpairs ⟨hs, hclosed, hlabels, rfl⟩ h
    rintro t t' b b' u ⟨halike, hclosed, hlabels', hlabels⟩ ⟨⟨hmention, hrange⟩, hb⟩ hstep
    obtain ⟨u', hu', halike'⟩ := define_detached halike (halike.closed hclosed) hb (hlabels ▸ hmention) hstep
    exact ⟨u', hu', halike', define_closed hlabels' hclosed (hb.body.inRange hrange) hu',
      (labels_define hu').trans hlabels', (labels_define hstep).trans hlabels⟩
  obtain ⟨t', ht', halike, -, hlabels', -⟩ := hrun
  exact ⟨t', ht', halike, hlabels'⟩

end Symbols

/-! ## Products -/

theorem Resolved.eq_of_alike {S S' : List Line} (hS : Line.Alike S S') {i : Nat} {ops : List Operand}
    {ins ins' : Instruction} (h : Resolved S i ops ins) (h' : Resolved S' i ops ins') : ins = ins' := by
  cases h with
  | next a b c hc =>
    cases h' with
    | next _ _ c' hc' =>
      have hcc : c = c' := UInt16.toNat_inj.1 (hc.trans hc'.symm)
      rw [hcc]
  | address a b c =>
    cases h' with
    | address => rfl
  | label a b c name n hn hc =>
    cases h' with
    | label _ _ c' _ n' hn' hc' =>
      rw [hS.position?, hn] at hn'
      cases hn'
      have hcc : c = c' := UInt16.toNat_inj.1 (hc.trans hc'.symm)
      rw [hcc]

/-- **Alike streams have one product.** -/
theorem Assembly.layOut_alike {S S' : List Line} {s s' : Symbols} {product : Product}
    (hS : Symbols.Expanding S s []) (hS' : Symbols.Expanding S' s' []) (halike : Line.Alike S S')
    (h : layOut s.labels S = .ok product) : layOut s'.labels S' = .ok product := by
  obtain ⟨himage, hfits, hlen, hres⟩ := layOut_spec hS h
  obtain ⟨product', h'⟩ := layOut_ok hS' (by rw [halike.instructions, ← hlen]; exact hfits)
  obtain ⟨himage', -, hlen', hres'⟩ := layOut_spec hS' h'
  rw [halike.instructions] at hlen' hres'
  have hprogram : product'.program = product.program := by
    refine List.ext_getElem (hlen'.trans hlen.symm) fun i hi' hi => ?_
    have hops := List.getElem?_eq_getElem (hlen ▸ hi : i < (Line.instructions S).length)
    obtain ⟨ins, hins, hr⟩ := hres i _ hops
    obtain ⟨ins', hins', hr'⟩ := hres' i _ hops
    obtain ⟨_, rfl⟩ := List.getElem?_eq_some_iff.1 hins
    obtain ⟨_, rfl⟩ := List.getElem?_eq_some_iff.1 hins'
    exact (hr.eq_of_alike halike hr').symm
  have hproduct : product' = product := by
    obtain ⟨program', image'⟩ := product'
    obtain ⟨program, image⟩ := product
    simp only at hprogram himage himage'
    rw [himage', himage, hprogram]
  exact hproduct ▸ h'

end Abcout
