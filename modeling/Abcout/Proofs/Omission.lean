import Mathlib.Logic.Function.Basic
import Abcout.Proofs.Alike
import Abcout.Proofs.Declarations

/-!
# Abcout.Proofs.Omission — definitions that are left out

A definition that is made among fewer others counts fewer calls, so the labels of its record get other names.
`Macro.RenamedBy f m m'` says that two records differ in the names of local labels and in counters only.

Two drafts of one definition are compared line by line.  The labels of a draft have new names in the other, one for
each; a call adds labels to both, and as none of these is there already, the new names can be extended to them
(`NameSet.exists_extension`).

`Symbols.defineAll_renamed`: when definitions are left out that the others do not call, those that stay give
renamed records.
-/

namespace Abcout

/-! ## Renamed lines -/

/-- An operand with another name for its label. -/
def Operand.rename (f : String → String) : Operand → Operand
  | .label name => .label (f name)
  | op => op

/-- A statement of a body with other names for its labels. -/
def Statement.rename (f : String → String) : Statement → Statement
  | .label name => .label (f name)
  | .instruction ops => .instruction (ops.map (Operand.rename f))
  | s => s

/-- A label is declared by a statement, or is an operand of it. -/
def Statement.Names (s : Statement) (x : String) : Prop := s = .label x ∨ .label x ∈ s.operands

/-- A line with other names for its labels.  Where none is changed, the line stays as it is written. -/
def Line.renamed (f : String → String) (l : Line) : Line :=
  if l.statement.rename f = l.statement then l else l.expanded (l.statement.rename f)

section Rename

variable {f g : String → String}

theorem Operand.rename_congr {op : Operand} (h : ∀ x, op = .label x → f x = g x) : op.rename f = op.rename g := by
  cases op with
  | label x => exact congrArg Operand.label (h x rfl)
  | number n => rfl
  | param i => rfl

theorem Statement.rename_congr {s : Statement} (h : ∀ x, s.Names x → f x = g x) : s.rename f = s.rename g := by
  cases s with
  | label x => exact congrArg Statement.label (h x (.inl rfl))
  | instruction ops =>
    refine congrArg Statement.instruction (List.map_congr_left fun op hop => ?_)
    exact Operand.rename_congr fun x hx => h x (.inr (hx ▸ hop))
  | _ => rfl

theorem Operand.rename_id (op : Operand) : op.rename id = op := by
  cases op <;> rfl

theorem Statement.rename_id (s : Statement) : s.rename id = s := by
  cases s with
  | instruction ops =>
    have hops : ops.map (Operand.rename id) = ops := (List.map_congr_left fun op _ => op.rename_id).trans
      (List.map_id ops)
    exact congrArg Statement.instruction hops
  | _ => rfl

namespace Line

@[simp] theorem statement_renamed (f : String → String) (l : Line) :
    (l.renamed f).statement = l.statement.rename f := by
  unfold renamed
  split_ifs with h
  · exact h.symm
  · rfl

theorem renamed_congr {l : Line} (h : ∀ x, l.statement.Names x → f x = g x) : l.renamed f = l.renamed g := by
  unfold renamed
  rw [Statement.rename_congr h]

theorem renamed_of_fixed {l : Line} (h : ∀ x, l.statement.Names x → f x = x) : l.renamed f = l := by
  unfold renamed
  rw [if_pos]
  exact (Statement.rename_congr h).trans l.statement.rename_id

theorem renamed_expanded (f : String → String) (site : Line) (s : Statement) :
    (site.expanded s).renamed f = site.expanded (s.rename f) := by
  unfold renamed
  split_ifs with h
  · exact congrArg site.expanded h.symm
  · rfl

theorem declared_renamed (f : String → String) (lines : List Line) :
    declared (lines.map (renamed f)) = (declared lines).map f := by
  unfold declared
  rw [List.filterMap_map, List.map_filterMap]
  congr 1
  funext l
  cases hl : l.statement <;> simp [Statement.rename, hl]

end Line

/-- Renaming before names are put in, and after it. -/
theorem Operand.substitute_rename {args : List Operand} {r r' : Renaming} {op : Operand}
    (hargs : ∀ x, .label x ∈ args → g x = x) (h : ∀ x, op = .label x → r'.apply (f x) = g (r.apply x)) :
    (op.rename f).substitute args r' = (op.substitute args r).rename g := by
  cases op with
  | label x => exact congrArg Operand.label (h x rfl)
  | number n => rfl
  | param i =>
    show args[i]?.getD (.param i) = (args[i]?.getD (.param i)).rename g
    cases hi : args[i]? with
    | none => rfl
    | some arg =>
      refine (Operand.rename_id arg).symm.trans (Operand.rename_congr fun x hx => ?_)
      exact (hargs x (hx ▸ List.mem_of_getElem? hi)).symm

theorem Statement.substitute_rename {args : List Operand} {r r' : Renaming} {s : Statement}
    (hargs : ∀ x, .label x ∈ args → g x = x) (h : ∀ x, s.Names x → r'.apply (f x) = g (r.apply x)) :
    (s.rename f).substitute args r' = (s.substitute args r).rename g := by
  cases s with
  | label x => exact congrArg Statement.label (h x (.inl rfl))
  | instruction ops =>
    simp only [Statement.rename, Statement.substitute, List.map_map]
    refine congrArg Statement.instruction (List.map_congr_left fun op hop => ?_)
    exact Operand.substitute_rename hargs fun x hx => h x (.inr (hx ▸ hop))
  | _ => rfl

theorem Template.rename {params : Nat} {known known' : String → Prop} {ops : List Operand}
    (h : Template params known ops) (hknown : ∀ x, known x → known' (f x)) :
    Template params known' (ops.map (Operand.rename f)) := by
  have hvalue : ∀ {op : Operand}, op.IsValue params → (op.rename f).IsValue params := by
    intro op hop
    cases hop with
    | number n => exact .number n
    | param i hi => exact .param i hi
  cases h with
  | next ha hb => exact .next (hvalue ha) (hvalue hb)
  | target ha hb hc =>
    refine .target (hvalue ha) (hvalue hb) ?_
    cases hc with
    | address n hn => exact .address n hn
    | param i hi => exact .param i hi
    | label name hname => exact .label (f name) (hknown name hname)

end Rename

/-! ## Renamed records -/

/-- The names of one set are new names for those of another, one for each. -/
structure NameSet.RenamedBy (f : String → String) (s s' : NameSet) : Prop where
  mem_iff : ∀ x, x ∈ s' ↔ ∃ y ∈ s, f y = x
  inj : ∀ x ∈ s, ∀ y ∈ s, f x = f y → x = y

namespace NameSet.RenamedBy

variable {f g : String → String} {s s' : NameSet}

theorem refl (s : NameSet) : NameSet.RenamedBy id s s := ⟨fun x => by simp, fun _ _ _ _ h => h⟩

theorem congr (h : NameSet.RenamedBy f s s') (hfg : ∀ x ∈ s, g x = f x) : NameSet.RenamedBy g s s' := by
  refine ⟨fun x => (h.mem_iff x).trans (exists_congr fun y => and_congr_right fun hy => by rw [hfg y hy]), ?_⟩
  intro x hx y hy e
  rw [hfg x hx, hfg y hy] at e
  exact h.inj x hx y hy e

/-- Further names, whose new names are further names, too. -/
theorem insertMany (h : NameSet.RenamedBy f s s') {names : List String} (hnew : ∀ x ∈ names, f x ∉ s')
    (hinj : ∀ x ∈ names, ∀ y ∈ names, f x = f y → x = y) :
    NameSet.RenamedBy f (s.insertMany names) (s'.insertMany (names.map f)) := by
  constructor
  · intro x
    rw [mem_insertMany_names, h.mem_iff, List.mem_map]
    simp only [mem_insertMany_names, or_and_right, exists_or]
  · intro x hx y hy e
    have hold : ∀ z ∈ s, f z ∈ s' := fun z hz => (h.mem_iff _).2 ⟨z, hz, rfl⟩
    rcases mem_insertMany_names.1 hx with hx | hx <;> rcases mem_insertMany_names.1 hy with hy | hy
    · exact h.inj x hx y hy e
    · exact absurd (e ▸ hold x hx) (hnew y hy)
    · exact absurd (e ▸ hold y hy) (hnew x hx)
    · exact hinj x hx y hy e

end NameSet.RenamedBy

/-- Records that differ in the names of local labels, and in counters. -/
structure Macro.RenamedBy (f : String → String) (m m' : Macro) : Prop where
  params : m'.params = m.params
  dependencies : m'.dependencies = m.dependencies
  body : m'.body = m.body.map (Line.renamed f)
  locals : NameSet.RenamedBy f m.locals m'.locals

theorem Macro.RenamedBy.of_uncounted {f : String → String} {m m' n n' : Macro} (h : m.RenamedBy f m')
    (hn : m.uncounted = n.uncounted) (hn' : m'.uncounted = n'.uncounted) : n.RenamedBy f n' := by
  obtain ⟨hparams, hdependencies, hbody, hlocals⟩ := h
  have hdeps : m.dependencies = n.dependencies ∧ m'.dependencies = n'.dependencies :=
    ⟨(Macro.mk.inj hn).2.2.1, (Macro.mk.inj hn').2.2.1⟩
  rw [params_eq_of_uncounted hn, params_eq_of_uncounted hn'] at hparams
  rw [hdeps.1, hdeps.2] at hdependencies
  rw [body_eq_of_uncounted hn, body_eq_of_uncounted hn'] at hbody
  rw [locals_eq_of_uncounted hn, locals_eq_of_uncounted hn'] at hlocals
  exact ⟨hparams, hdependencies, hbody, hlocals⟩

/-- The second table has no other names than the first, and of each macro that is kept a renamed record. -/
structure MacroTable.Keeps (keep : String → Prop) (t t' : MacroTable) : Prop where
  mem : ∀ k ∈ t', k ∈ t
  record : ∀ k m, keep k → t[k]? = some m → ∃ m' f, t'[k]? = some m' ∧ m.RenamedBy f m'

namespace MacroTable.Keeps

variable {keep : String → Prop} {t t' u u' : MacroTable}

theorem refl (keep : String → Prop) (t : MacroTable) : t.Keeps keep t := by
  refine ⟨fun _ hk => hk, fun k m _ hm => ⟨m, id, hm, rfl, rfl, ?_, .refl _⟩⟩
  refine ((List.map_congr_left fun l _ => ?_).trans (List.map_id m.body)).symm
  exact Line.renamed_of_fixed fun _ _ => rfl

theorem of_sameCode (h : t.Keeps keep t') (hu : t.SameCode u) (hu' : t'.SameCode u') : u.Keeps keep u' := by
  refine ⟨fun k hk => hu.extends.mem (h.mem k (hu'.symm.extends.mem hk)), fun k n hkeep hn => ?_⟩
  obtain ⟨m, hm, e⟩ := hu.exists_of_getElem? hn
  obtain ⟨m', f, hm', hmm'⟩ := h.record k m hkeep hm
  obtain ⟨n', hn', e'⟩ := hu'.extends k m' hm'
  exact ⟨n', f, hn', hmm'.of_uncounted e e'⟩

theorem insert (h : t.Keeps keep t') {f : String → String} {m m' : Macro} (hm : m.RenamedBy f m') (name : String) :
    Keeps keep (t.insert name m) (t'.insert name m') := by
  refine ⟨fun k hk => ?_, fun k n hkeep hn => ?_⟩
  · rw [mem_insert_name] at hk ⊢
    exact hk.imp_right (h.mem k)
  · rw [getElem?_insert_name] at hn ⊢
    split_ifs at hn ⊢
    · cases hn
      exact ⟨m', f, rfl, hm⟩
    · exact h.record k n hkeep hn

/-- The first table may get other macros that are not kept. -/
theorem insert_left (h : t.Keeps keep t') {name : String} (hname : ¬ keep name) (m : Macro) :
    Keeps keep (t.insert name m) t' := by
  refine ⟨fun k hk => mem_insert_name.2 (.inr (h.mem k hk)), fun k n hkeep hn => ?_⟩
  have hk : name ≠ k := fun e => hname (e ▸ hkeep)
  rw [getElem?_insert_name, if_neg hk] at hn
  exact h.record k n hkeep hn

end MacroTable.Keeps

/-! ## Calls -/

/-- Names can be given to the values of a function that are not among those that have names. -/
theorem NameSet.exists_extension (g h : String → String) {r : String → String} {old new : NameSet}
    (hinj : ∀ x ∈ new, ∀ y ∈ new, r x = r y → x = y) (hout : ∀ x ∈ new, r x ∉ old) :
    ∃ g' : String → String, (∀ x ∈ old, g' x = g x) ∧ ∀ x ∈ new, g' (r x) = h x := by
  have hr : Function.Injective fun x : { x // x ∈ new } => r x := fun x y e => Subtype.ext (hinj x x.2 y y.2 e)
  refine ⟨Function.extend (fun x : { x // x ∈ new } => r x) (fun x => h x) g, fun x hx => ?_, fun x hx => ?_⟩
  · refine Function.extend_apply' _ _ _ ?_
    rintro ⟨y, rfl⟩
    exact hout y y.2 hx
  · exact hr.extend_apply _ _ ⟨x, hx⟩

/-- The new names of a call in a definition are no labels of the definition. -/
theorem Scope.freshNames_notMem {params : Nat} {locals : NameSet} {labels : LabelTable}
    {name l : String} {m : Macro} (hl : l ∈ m.locals) :
    ((definition params locals).freshNames labels name m).apply l ∉ locals := by
  have hfree : (definition params locals).inUse labels
      (((definition params locals).freshNames labels name m).apply l) = false :=
    inUse_freshNames hl
  exact NameSet.not_mem_of_contains hfree

/-- A body with other names for its labels, instantiated with new names for those. -/
theorem Macro.RenamedBy.instantiate {f g : String → String} {m m' : Macro} (h : m.RenamedBy f m') (hm : m.Closed)
    {args : List Operand} {r r' : Renaming} (hargs : ∀ x, .label x ∈ args → g x = x)
    (hnew : ∀ x ∈ m.locals, g (r.apply x) = r'.apply (f x)) (site : Line) :
    m'.instantiate args r' site = (m.instantiate args r site).map (Line.renamed g) := by
  rw [Macro.instantiate, Macro.instantiate, h.body, List.map_map, List.map_map]
  refine List.map_congr_left fun l hl => ?_
  simp only [Function.comp_apply, Line.statement_renamed, Line.renamed_expanded]
  refine congrArg site.expanded (Statement.substitute_rename hargs fun x hx => (hnew x ?_).symm)
  rcases hx with hx | hx
  · rw [hm.mem_locals, Line.mem_declared_iff]
    exact hx ▸ List.mem_map_of_mem hl
  · exact hm.mem_locals_of_operand hl hx

/-- An instruction of a definition is a proper one, with other names for the labels of the definition. -/
theorem Scope.accepts_renamed {params : Nat} {g : String → String} {locals locals' : NameSet}
    {labels labels' : LabelTable} (hlabels : labels = ∅) (hg : NameSet.RenamedBy g locals locals') {l : Line}
    (h : (definition params locals).accepts labels l = true) :
    (definition params locals').accepts labels' (l.renamed g) = true := by
  refine accepts_iff.2 fun ops' hops' => ?_
  rw [Line.statement_renamed] at hops'
  cases hops : l.statement with
  | instruction ops =>
    rw [hops] at hops'
    cases hops'
    have hchecked := checkInstruction_of_accepts hops h
    rw [checkInstruction_definition] at hchecked ⊢
    exact hchecked.rename fun x hx => .inl ((hg.mem_iff _).2 ⟨x, hx.resolve_right (by simp [hlabels]), rfl⟩)
  | _ =>
    rw [hops] at hops'
    cases hops'

section Call

variable {keep : String → Prop} {s s' t : Symbols} {params : Nat} {locals locals' : NameSet}
  {site : Line} {name : String} {args : List Operand} {lines : List Line} {g : String → String}

/-- A call in a definition may be made where the labels of the definition have other names, if its arguments have
not. -/
theorem Scope.checkCall_renamed (hs : s.macros.Keeps keep s'.macros) (hg : NameSet.RenamedBy g locals locals')
    (hargs : ∀ x, .label x ∈ args → x ∈ locals ∧ g x = x) (hname : keep name)
    (h : (definition params locals).checkCall s name args = .ok ()) :
    (definition params locals').checkCall s' name args = .ok () := by
  obtain ⟨hmnemonic, hchecked, m, hm, hlen⟩ := checkCall_eq_ok_iff.1 h
  obtain ⟨m', f, hm', hmm'⟩ := hs.record name m hname hm
  refine checkCall_eq_ok_iff.2 ⟨hmnemonic, fun arg harg => ?_, m', hm', by rw [hmm'.params, hlen]⟩
  cases arg with
  | number n => exact hchecked _ harg
  | param i => exact hchecked _ harg
  | label x =>
    obtain ⟨hx, hfixed⟩ := hargs x harg
    exact ensure_eq_ok_iff.2 (knows_definition.2 (.inl ((hg.mem_iff x).2 ⟨x, hx, hfixed⟩)))

/-- A call in a definition, where the labels of the definition have other names.  The labels of the expansion get
further names. -/
theorem Symbols.expand_renamed (hs : s.macros.Keeps keep s'.macros) (hclosed : s.macros.All Macro.Closed)
    (hlabels : s.labels = ∅) (hg : NameSet.RenamedBy g locals locals')
    (hargs : ∀ x, .label x ∈ args → x ∈ locals ∧ g x = x) (hname : keep name)
    (h : s.expand (.definition params locals) site name args = .ok (lines, t)) :
    ∃ g' t', s'.expand (.definition params locals') site name args = .ok (lines.map (Line.renamed g'), t') ∧
      (∀ x ∈ locals, g' x = g x) ∧
      NameSet.RenamedBy g' (locals.insertMany (Line.declared lines))
        (locals'.insertMany (Line.declared (lines.map (Line.renamed g')))) := by
  obtain ⟨m, hm, hlines, haccept, -⟩ := expand_eq_ok_iff.1 h
  obtain ⟨m', f, hm', hmm'⟩ := hs.record name m hname hm
  have hclosed := hclosed name m hm
  set r := (Scope.definition params locals).freshNames s.labels name m
  set r' := (Scope.definition params locals').freshNames s'.labels name m'
  have hf : ∀ x ∈ m.locals, f x ∈ m'.locals := fun x hx => (hmm'.locals.mem_iff _).2 ⟨x, hx, rfl⟩
  have hout : ∀ x ∈ m.locals, r.apply x ∉ locals := fun x hx => Scope.freshNames_notMem hx
  have hout' : ∀ x ∈ m'.locals, r'.apply x ∉ locals' := fun x hx => Scope.freshNames_notMem hx
  obtain ⟨g', hold, hnew⟩ := NameSet.exists_extension g (fun x => r'.apply (f x))
    (fun x hx y hy => Scope.freshNames_inj hx hy) hout
  -- the other expansion says the same under the new names
  have hlines' : m'.instantiate args r' site = lines.map (Line.renamed g') := by
    rw [hlines]
    exact hmm'.instantiate hclosed (fun x hx => (hold x (hargs x hx).1).trans (hargs x hx).2) hnew site
  have hdeclared : ∀ x ∈ Line.declared lines, ∃ y ∈ m.locals, x = r.apply y := by
    intro x hx
    rw [hlines, declared_instantiate] at hx
    obtain ⟨y, hy, rfl⟩ := List.mem_map.1 hx
    exact ⟨y, (hclosed.mem_locals y).2 hy, rfl⟩
  have hrenamed : NameSet.RenamedBy g' (locals.insertMany (Line.declared lines))
      (locals'.insertMany (Line.declared (lines.map (Line.renamed g')))) := by
    rw [Line.declared_renamed]
    refine (hg.congr hold).insertMany (fun x hx => ?_) fun x hx y hy e => ?_
    · obtain ⟨z, hz, rfl⟩ := hdeclared x hx
      rw [hnew z hz]
      exact hout' _ (hf z hz)
    · obtain ⟨z, hz, rfl⟩ := hdeclared x hx
      obtain ⟨w, hw, rfl⟩ := hdeclared y hy
      rw [hnew z hz, hnew w hw] at e
      exact congrArg r.apply (hmm'.locals.inj z hz w hw (Scope.freshNames_inj (hf z hz) (hf w hw) e))
  refine ⟨g', _, expand_eq_ok_iff.2 ⟨m', hm', hlines'.symm, fun l' hl' => ?_, rfl⟩, hold, hrenamed⟩
  obtain ⟨l, hl, rfl⟩ := List.mem_map.1 hl'
  exact Scope.accepts_renamed hlabels hrenamed (haccept l hl)

end Call

/-! ## Definitions -/

namespace Block

variable {b : Block} {params : Nat} {d d' e : Draft} {line : Line} {g : String → String} {keep : String → Prop}

/-- Two drafts of one definition: labels that the definition declares itself have the same names in both. -/
structure Draft.RenamedBy (b : Block) (g : String → String) (d d' : Draft) : Prop where
  body : d'.body.toList = d.body.toList.map (Line.renamed g)
  dependencies : d'.dependencies = d.dependencies
  locals : NameSet.RenamedBy g d.locals d'.locals
  names : ∀ l ∈ d.body.toList, ∀ x, l.statement.Names x → x ∈ d.locals
  fixed : ∀ x ∈ Line.declared b.body, g x = x

/-- A line whose labels are declared by the definition itself goes to both bodies. -/
theorem Draft.RenamedBy.push (h : d.RenamedBy b g d') (hscoped : d.Scoped b)
    (hline : ∀ x, line.statement.Names x → x ∈ Line.declared b.body) :
    Draft.RenamedBy b g { d with body := d.body.push line } { d' with body := d'.body.push line } := by
  refine ⟨?_, h.dependencies, h.locals, ?_, h.fixed⟩
  · rw [Array.toList_push, Array.toList_push, List.map_append, h.body, List.map_singleton,
      Line.renamed_of_fixed fun x hx => h.fixed x (hline x hx)]
  · rw [Array.toList_push]
    exact List.forall_mem_append.2 ⟨h.names, List.forall_mem_singleton.2 fun x hx =>
      hscoped.of_declared x (hline x hx)⟩

/-- The lines of a call go to both bodies, with further new names. -/
theorem Draft.RenamedBy.append (h : d.RenamedBy b g d') (hscoped : d.Scoped b) {symbols symbols' : Symbols}
    {name : String} {lines : List Line} {g' : String → String} (hold : ∀ x ∈ d.locals, g' x = g x)
    (hlocals : NameSet.RenamedBy g' (d.locals.insertMany (Line.declared lines))
      (d'.locals.insertMany (Line.declared (lines.map (Line.renamed g')))))
    (hnames : ∀ l ∈ lines, ∀ x, l.statement.Names x → x ∈ d.locals ∨ x ∈ Line.declared lines) :
    Draft.RenamedBy b g'
      ⟨symbols, d.body ++ lines, d.dependencies.insert name, d.locals.insertMany (Line.declared lines)⟩
      ⟨symbols', d'.body ++ lines.map (Line.renamed g'), d'.dependencies.insert name,
        d'.locals.insertMany (Line.declared (lines.map (Line.renamed g')))⟩ := by
  refine ⟨?_, by rw [h.dependencies], hlocals, ?_, fun x hx =>
    (hold x (hscoped.of_declared x hx)).trans (h.fixed x hx)⟩
  · -- the lines before have no labels but those with names so far
    have hbody : d.body.toList.map (Line.renamed g) = d.body.toList.map (Line.renamed g') :=
      List.map_congr_left fun l hl => Line.renamed_congr fun x hx => (hold x (h.names l hl x hx)).symm
    simp [h.body, hbody]
  · have hbody : (d.body ++ lines).toList = d.body.toList ++ lines := by simp
    rw [hbody]
    exact List.forall_mem_append.2 ⟨fun l hl x hx => NameSet.mem_insertMany_names.2 (.inl (h.names l hl x hx)),
      fun l hl x hx => NameSet.mem_insertMany_names.2 (hnames l hl x hx)⟩

/-- **Step**: one more line of a definition. -/
theorem Draft.step_renamed (hd : d.RenamedBy b g d') (hscoped : d.Scoped b)
    (hmacros : d.symbols.macros.Keeps keep d'.symbols.macros) (hclosed : d.symbols.macros.All Macro.Closed)
    (hlabels : d.symbols.labels = ∅) (hnames : ∀ x, line.statement.Names x → x ∈ Line.declared b.body)
    (hcall : ∀ name args, line.statement = .call name args → keep name) (h : d.step b params line = .ok e) :
    ∃ g' e', d'.step b params line = .ok e' ∧ e.RenamedBy b g' e' := by
  rcases step_eq_ok_iff.1 h with ⟨hl, rfl⟩ | ⟨name, hl, rfl⟩ | ⟨ops, hl, hcheck, rfl⟩ |
    ⟨name, args, lines, symbols, hl, hcheck, he, rfl⟩
  · exact ⟨g, d', step_eq_ok_iff.2 (.inl ⟨hl, rfl⟩), hd⟩
  · exact ⟨g, _, step_eq_ok_iff.2 (.inr (.inl ⟨name, hl, rfl⟩)), hd.push hscoped hnames⟩
  · refine ⟨g, _, step_eq_ok_iff.2 (.inr (.inr (.inl ⟨ops, hl, ?_, rfl⟩))), hd.push hscoped hnames⟩
    rw [hl] at hnames
    rw [Scope.checkInstruction_definition] at hcheck ⊢
    refine hcheck.imp fun x hx _ => .inl ((hd.locals.mem_iff x).2 ⟨x, ?_, ?_⟩)
    · exact hscoped.of_declared x (hnames x (.inr hx))
    · exact hd.fixed x (hnames x (.inr hx))
  · have hargs : ∀ x, .label x ∈ args → x ∈ d.locals ∧ g x = x := by
      intro x hx
      have hdecl := hnames x (.inr (by rw [hl]; exact hx))
      exact ⟨hscoped.of_declared x hdecl, hd.fixed x hdecl⟩
    obtain ⟨g', symbols', he', hold, hlocals⟩ :=
      Symbols.expand_renamed hmacros hclosed hlabels hd.locals hargs (hcall name args hl) he
    have hcheck' := Scope.checkCall_renamed hmacros hd.locals hargs (hcall name args hl) hcheck
    obtain ⟨m, hm, hlines, -, -⟩ := Symbols.expand_eq_ok_iff.1 he
    refine ⟨g', _, step_eq_ok_iff.2 (.inr (.inr (.inr ⟨name, args, _, symbols', hl, hcheck', he', rfl⟩))),
      hd.append hscoped hold hlocals fun l hl x hx => ?_⟩
    rcases hx with hx | hx
    · exact .inr (Line.mem_declared_iff.2 (hx ▸ List.mem_map_of_mem hl))
    · rcases (hclosed name m hm).label_of_instantiate (hlines ▸ hl) hx with harg | hdecl
      · exact .inl (hargs x harg).1
      · exact .inr (hlines ▸ hdecl)

end Block

namespace Symbols

variable {keep : String → Prop} {s s' t : Symbols} {b : Block}

/-- **A definition among fewer macros**: if those that it calls are kept, its record is a renamed one. -/
theorem define_renamed (hs : s.macros.Keeps keep s'.macros) (hclosed : s.macros.All Macro.Closed)
    (hlabels : s.labels = ∅) (hmention : ∀ x, Line.Mentions b.body x → x ∈ Line.declared b.body)
    (hcalls : ∀ k ∈ Line.callees b.body, keep k) (h : s.define b = .ok t) :
    ∃ t', s'.define b = .ok t' ∧ t.macros.Keeps keep t'.macros := by
  have hname : b.checkName s'.macros = .ok () := by
    obtain ⟨-, -, -, hname, -⟩ := define_eq_ok_iff.1 h
    rw [Block.checkName_eq_ok_iff] at hname ⊢
    exact hname.imp_right (And.imp_right (mt (hs.mem b.name)))
  have hlines : List.Forall₂ (fun l l' => l = l' ∧ (∀ x, l.statement.Names x → x ∈ Line.declared b.body) ∧
      ∀ name args, l.statement = .call name args → keep name) b.body b.body := by
    refine List.forall₂_same.2 fun l hl => ⟨rfl, fun x hx => ?_, fun name args hcall => hcalls name ?_⟩
    · rcases hx with hx | hx
      · exact Line.mem_declared_iff.2 (hx ▸ List.mem_map_of_mem hl)
      · exact hmention x ⟨l, hl, hx⟩
    · exact List.mem_filterMap.2 ⟨l, hl, by rw [hcall]⟩
  have hrun := define_simulates s' (fun d d' => (∃ g, Block.Draft.RenamedBy b g d d') ∧ d.Scoped b ∧
      d.symbols.macros.Keeps keep d'.symbols.macros ∧ d.symbols.macros.All Macro.Closed ∧ d.symbols.labels = ∅) _
    ⟨rfl, rfl, Line.alike_iff.2 rfl⟩ hname hlines ?_ ?_ h
  · obtain ⟨params, d, d', ⟨⟨g, hg⟩, -, hmacros, -⟩, rfl, hdefine⟩ := hrun
    have hrecord : Macro.RenamedBy g ⟨params, d.body.toList, d.dependencies, d.locals, 0, 0⟩
        ⟨params, d'.body.toList, d'.dependencies, d'.locals, 0, 0⟩ := ⟨rfl, hg.dependencies, hg.body, hg.locals⟩
    exact ⟨_, hdefine, hmacros.insert hrecord b.name⟩
  · intro locals hlocals
    exact ⟨⟨id, rfl, rfl, .refl _, by simp, fun _ _ => rfl⟩, .start (MacroTable.Proper.wellFormed hclosed) hlocals,
      hs, hclosed, hlabels⟩
  · rintro params d d' l l' e ⟨⟨g, hg⟩, hscoped, hmacros, hclosed, hlabels⟩ ⟨rfl, hnames, hcall⟩ hstep
    obtain ⟨g', e', hstep', hg'⟩ := Block.Draft.step_renamed hg hscoped hmacros hclosed hlabels hnames hcall hstep
    obtain ⟨hcode, hlabels'⟩ := Block.Draft.sameCode_step hstep
    exact ⟨e', hstep', ⟨g', hg'⟩, hscoped.step hstep, hmacros.of_sameCode hcode
      (Block.Draft.sameCode_step hstep').1, MacroTable.Proper.of_sameCode hclosed hcode, hlabels'.trans hlabels⟩

/-- A definition that is left out. -/
theorem define_left_out (hs : s.macros.Keeps keep s'.macros) (hname : ¬ keep b.name) (h : s.define b = .ok t) :
    t.macros.Keeps keep s'.macros := by
  obtain ⟨params, locals, d, -, -, hd, rfl⟩ := define_eq_ok h
  exact (hs.of_sameCode (Block.Draft.sameCode_foldlM hd).1 (.refl _)).insert_left hname _

/-- **Run**: when definitions are left out, the others give renamed records, if they call none of those. -/
theorem defineAll_renamed {blocks : List Block} {p : Block → Bool} (hs : s.macros.Keeps keep s'.macros)
    (hclosed : s.macros.All Macro.Closed) (hlabels : s.labels = ∅) (hrange : ∀ b ∈ blocks, ∀ l ∈ b.body, l.InRange)
    (hout : ∀ b ∈ blocks, p b = false → ¬ keep b.name)
    (hmention : ∀ b ∈ blocks, p b = true → ∀ x, Line.Mentions b.body x → x ∈ Line.declared b.body)
    (hcalls : ∀ b ∈ blocks, p b = true → ∀ k ∈ Line.callees b.body, keep k)
    (h : blocks.foldlM Symbols.define s = .ok t) : ∃ t', (blocks.filter p).foldlM Symbols.define s' = .ok t' ∧
      t.macros.Keeps keep t'.macros := by
  induction blocks generalizing s s' with
  | nil =>
    cases h
    exact ⟨s', rfl, hs⟩
  | cons b blocks ih =>
    rw [List.foldlM_cons, bind_eq_ok] at h
    obtain ⟨s₁, hs₁, h⟩ := h
    rw [List.forall_mem_cons] at hrange hout hmention hcalls
    have hclosed₁ := define_closed hlabels hclosed hrange.1 hs₁
    have hlabels₁ := (labels_define hs₁).trans hlabels
    cases hb : p b with
    | false =>
      rw [List.filter_cons_of_neg (by simp [hb])]
      exact ih (define_left_out hs (hout.1 hb) hs₁) hclosed₁ hlabels₁ hrange.2 hout.2 hmention.2 hcalls.2 h
    | true =>
      obtain ⟨s₁', hs₁', hkeeps⟩ := define_renamed hs hclosed hlabels (hmention.1 hb) (hcalls.1 hb) hs₁
      rw [List.filter_cons_of_pos hb, List.foldlM_cons, hs₁']
      exact ih hkeeps hclosed₁ hlabels₁ hrange.2 hout.2 hmention.2 hcalls.2 h

end Symbols

end Abcout
