import Mathlib.Data.List.Induction
import Abcout.Proofs.Contexts
import Abcout.Proofs.Session
import Abcout.Proofs.Substitution

/-!
# Abcout.Proofs.Provenance — the definitions behind the records of a table

A record holds the names of the macros that its definition calls, and these names were read in the source of that
definition.  In another source they can stand for other macros.

* `Import.Input`: a source as it is loaded in a run.  `Input.definer?`: where the macro is defined that a name
  stands for there, in a file that is imported or in the source itself.
* `Import.Inlined`: the body of a macro has become part of the body of another one, directly or through others.
* `Import.Recorded`: a record belongs to a definition of a source.  Its dependencies are the macros that the
  definition calls, and it contains their records; hence those of all inlined macros
  (`Recorded.exists_of_inlined`).
* `Import.Homed`: every record of a table belongs to the definition that its name stands for.  It is kept by
  definitions (`Homed.define`) and by import statements (`Homed.copy`), however deep the imports go (`homed_load`).
* `Assembly.Context.exists_input`: so it holds of every table that a run meets.
-/

namespace Abcout

/-! ## Definitions -/

namespace Block

/-- A record is what a definition leads to: its dependencies are the macros that the definition calls, which does
not call itself, and it contains their records in the table `t`. -/
structure Describes (b : Block) (t : MacroTable) (m : Macro) : Prop where
  mem_dependencies : ∀ x, x ∈ m.dependencies ↔ x ∈ Line.callees b.body
  notMem_callees : b.name ∉ Line.callees b.body
  contains : ∀ x ∈ Line.callees b.body, ∃ c, t[x]? = some c ∧ m.Contains c

variable {b : Block} {t : MacroTable} {m m' : Macro}

theorem Describes.of_uncounted (h : b.Describes t m) (e : m.uncounted = m'.uncounted) : b.Describes t m' := by
  have hdependencies : m.dependencies = m'.dependencies := (Macro.mk.inj e).2.2.1
  refine ⟨hdependencies ▸ h.mem_dependencies, h.notMem_callees, ?_⟩
  unfold Macro.Contains
  rw [← Macro.body_eq_of_uncounted e]
  exact h.contains

theorem Draft.mem_dependencies_step {params : Nat} {d d' : Draft} {line : Line} (h : d.step b params line = .ok d')
    (x : String) : x ∈ d'.dependencies ↔ x ∈ d.dependencies ∨ x ∈ Line.callees [line] := by
  have hother : (∀ name args, line.statement ≠ .call name args) → Line.callees [line] = [] :=
    fun hne => Line.callees_cons_of_ne [] hne
  rcases Draft.step_eq_ok h with ⟨hl, rfl⟩ | ⟨name, hl, rfl⟩ | ⟨ops, hl, -, rfl⟩ |
    ⟨name, args, lines, symbols, hl, -, rfl⟩
  · simp [hother, hl]
  · simp [hother, hl]
  · simp [hother, hl]
  · rw [NameSet.mem_insert_name, Line.callees_cons_call [] hl]
    simp [Line.callees, or_comm, eq_comm]

theorem Draft.mem_dependencies_foldlM {params : Nat} {d d' : Draft} {lines : List Line}
    (h : lines.foldlM (Draft.step b params) d = .ok d') (x : String) :
    x ∈ d'.dependencies ↔ x ∈ d.dependencies ∨ x ∈ Line.callees lines := by
  induction lines generalizing d with
  | nil =>
    cases h
    simp [Line.callees]
  | cons line lines ih =>
    rw [List.foldlM_cons, bind_eq_ok] at h
    obtain ⟨d₁, hd₁, h⟩ := h
    have hcallees : Line.callees (line :: lines) = Line.callees [line] ++ Line.callees lines := by
      rw [← List.singleton_append, Line.callees, List.filterMap_append]
      rfl
    rw [ih h, Draft.mem_dependencies_step hd₁, hcallees, List.mem_append, or_assoc]

theorem notMem_callees_of_checkCalls (h : b.checkCalls = .ok ()) : b.name ∉ Line.callees b.body := by
  unfold checkCalls at h
  cases hfind : b.body.find? b.callsItself with
  | some line =>
    rw [hfind] at h
    cases h
  | none =>
    intro hmem
    obtain ⟨l, hl, hcall⟩ := List.mem_filterMap.1 hmem
    have hne := List.find?_eq_none.1 hfind l hl
    cases hstatement : l.statement with
    | call name args => simp_all [callsItself]
    | _ => simp [hstatement] at hcall

end Block

namespace Symbols

variable {s t : Symbols} {b : Block} {free : String → String → Prop}

theorem exists_contained_of_define (hs : s.macros.Proper free) (h : s.define b = .ok t) {m : Macro}
    (hm : t.macros[b.name]? = some m) {x : String} (hx : x ∈ Line.callees b.body) :
    ∃ c, s.macros[x]? = some c ∧ m.Contains c := by
  obtain ⟨line, hline, hcall⟩ := List.mem_filterMap.1 hx
  obtain ⟨before, after, hbody⟩ := List.append_of_mem hline
  cases hl : line.statement with
  | call name args =>
    obtain rfl : name = x := by simpa [hl] using hcall
    obtain ⟨m', c, pre, post, r, hm', hc, hrecord, hcover⟩ := exists_inlined_of_define hs h hbody hl
    obtain rfl : m = m' := Option.some.inj (hm.symm.trans hm')
    exact ⟨c, hc, pre, post, args, r, line, hrecord, hcover⟩
  | _ => simp [hl] at hcall

/-- A definition describes the record that it adds. -/
theorem describes_define (hs : s.macros.Proper free) (h : s.define b = .ok t) {m : Macro}
    (hm : t.macros[b.name]? = some m) : b.Describes s.macros m := by
  have hcontained := fun x => exists_contained_of_define (x := x) hs h hm
  obtain ⟨params, locals, d, -, -, hcalls, -, hd, rfl⟩ := define_eq_ok_iff.1 h
  rw [getElem?_insert_name, if_pos rfl] at hm
  cases hm
  refine ⟨fun x => ?_, Block.notMem_callees_of_checkCalls hcalls, hcontained⟩
  rw [Block.Draft.mem_dependencies_foldlM hd]
  simp

end Symbols

/-! ## What names stand for -/

/-- Whether an import statement asks for a macro, if its file defines it. -/
def Selection.takes : Selection → String → Bool
  | .all, _ => true
  | .names requested, name => requested.contains name

namespace Import

/-- A source as it is loaded in a run: the chain of files that are open, where it comes from, and its text. -/
structure Input where
  chain : List Location
  origin : Origin
  text : String
deriving DecidableEq

namespace Input

/-- The location of a source, if it is a file. -/
def node (i : Input) : Option Location := i.chain.head?

/-- The lines of a source, as far as they can be read. -/
def lines (i : Input) : List Line := (Line.readAll i.origin.name i.text).toOption.getD []

/-- The definition of a macro in a source. -/
def block? (i : Input) (name : String) : Option Block := (Block.split i.lines).1.find? (·.name == name)

/-- The definition of the macro `n` of a source calls the macro `k`. -/
def Calls (i : Input) (n k : String) : Prop := ∃ b, i.block? n = some b ∧ k ∈ Line.callees b.body

instance (i : Input) (n k : String) : Decidable (i.Calls n k) :=
  decidable_of_iff ((i.block? n).any (fun b => (Line.callees b.body).contains k) = true)
    (by simp [Calls, Option.any_eq_true])

theorem calls_iff {i : Input} {n : String} {names : List String}
    (h : (i.block? n).map (fun b => Line.callees b.body) = some names) {k : String} : i.Calls n k ↔ k ∈ names := by
  obtain ⟨b, hb, rfl⟩ := Option.map_eq_some_iff.1 h
  constructor
  · rintro ⟨b', hb', hk⟩
    obtain rfl : b' = b := Option.some.inj (hb'.symm.trans hb)
    exact hk
  · exact fun hk => ⟨b, hb, hk⟩

/-- The source that an import statement opens. -/
def opened {tree : FileTree} (i : Input) (clause : ImportClause) (f : tree.TextFile) : Input :=
  ⟨f.location :: i.chain, originOf clause i.origin.directory, f.text⟩

variable (tree : FileTree)

/-- The source that defines a macro, if an import statement asks for it. -/
def brought? (i : Input) (k : String) (line : Line) : Option Input :=
  match ImportClause.parse line.text.toList with
  | .error _ => none
  | .ok clause => (tree.textFile? (Path.join i.origin.directory clause.fileName)).bind fun f =>
    if clause.selection.takes k && ((i.opened clause f).block? k).isSome then some (i.opened clause f) else none

/-- The source that defines the macro that a name stands for in a source: the file of the first import statement
for it, or else the source itself. -/
def definer? (i : Input) (k : String) : Option Input :=
  ((i.lines.filter Line.isImport).findSome? (i.brought? tree k)).or ((i.block? k).map fun _ => i)

end Input

/-- The body of a macro of the source at a node is part of the body of the macro `n` of a source, because a
definition calls it: that of `n`, or that of a macro whose body is part of it in turn. -/
inductive Inlined (tree : FileTree) : Input → String → Option Location → String → Prop
  | direct {i j : Input} {n k : String} (hcall : i.Calls n k) (hk : i.definer? tree k = some j) :
      Inlined tree i n j.node k
  | through {i j : Input} {n k x : String} {l : Option Location} (hcall : i.Calls n k)
      (hk : i.definer? tree k = some j) (h : Inlined tree j k l x) : Inlined tree i n l x

/-- A record of the macro `k` of a source: it has been made from the definition of `k` there, with a table whose
records have been made from the definitions that their names stand for. -/
inductive Recorded (tree : FileTree) : Input → String → Macro → Prop
  | intro {i : Input} {k : String} {m : Macro} {b : Block} {t : MacroTable} (hblock : i.block? k = some b)
      (hdescribes : b.Describes t m) (hdefiner : ∀ x ∈ t, ∃ j, i.definer? tree x = some j)
      (hrecords : ∀ (x : String) (c : Macro) (j : Input), t[x]? = some c → i.definer? tree x = some j →
        Recorded tree j x c) :
      Recorded tree i k m

/-- Every record of a table belongs to the definition that its name stands for in a source. -/
def Homed (tree : FileTree) (i : Input) (t : MacroTable) : Prop :=
  ∀ (k : String) (m : Macro), t[k]? = some m → ∃ j, i.definer? tree k = some j ∧ Recorded tree j k m

variable {tree : FileTree} {i : Input} {t t' : MacroTable}

namespace Recorded

variable {n k : String} {m : Macro}

theorem of_uncounted {m' : Macro} (h : Recorded tree i k m) (e : m.uncounted = m'.uncounted) :
    Recorded tree i k m' := by
  obtain ⟨hblock, hdescribes, hdefiner, hrecords⟩ := h
  exact ⟨hblock, hdescribes.of_uncounted e, hdefiner, hrecords⟩

theorem mem_dependencies_iff (h : Recorded tree i n m) : k ∈ m.dependencies ↔ i.Calls n k := by
  obtain ⟨hblock, hdescribes, -, -⟩ := h
  rw [hdescribes.mem_dependencies]
  exact (Input.calls_iff (Option.map_eq_some_iff.2 ⟨_, hblock, rfl⟩)).symm

theorem not_calls_self (h : Recorded tree i n m) : ¬ i.Calls n n := by
  obtain ⟨hblock, hdescribes, -, -⟩ := h
  rintro ⟨b, hb, hmem⟩
  obtain rfl := Option.some.inj (hb.symm.trans hblock)
  have hname : b.name = n := by simpa using List.find?_some hb
  exact hdescribes.notMem_callees (hname ▸ hmem)

/-- A record contains one for each call of its definition. -/
theorem exists_of_calls (h : Recorded tree i n m) (hk : i.Calls n k) :
    ∃ j c, i.definer? tree k = some j ∧ Recorded tree j k c ∧ m.Contains c := by
  obtain ⟨hblock, hdescribes, hdefiner, hrecords⟩ := h
  obtain ⟨b, hb, hmem⟩ := hk
  cases hblock.symm.trans hb
  obtain ⟨c, hc, hcontains⟩ := hdescribes.contains k hmem
  obtain ⟨j, hj⟩ := hdefiner k (mem_iff_exists_getElem?.2 ⟨c, hc⟩)
  exact ⟨j, c, hj, hrecords k c j hc hj, hcontains⟩

/-- **What is inlined is there**: a record contains one for each macro whose body is part of its body. -/
theorem exists_of_inlined {l : Option Location} (h : Recorded tree i n m) (hk : Inlined tree i n l k) :
    ∃ j c, j.node = l ∧ Recorded tree j k c ∧ m.Contains c := by
  induction hk generalizing m with
  | direct hcall hk =>
    obtain ⟨j, c, hj, hrecorded, hcontains⟩ := h.exists_of_calls hcall
    cases hk.symm.trans hj
    exact ⟨_, c, rfl, hrecorded, hcontains⟩
  | through hcall hk _ ih =>
    obtain ⟨j, c, hj, hrecorded, hcontains⟩ := h.exists_of_calls hcall
    cases hk.symm.trans hj
    obtain ⟨j', c', hnode, hrecorded', hcontains'⟩ := ih hrecorded
    exact ⟨j', c', hnode, hrecorded', hcontains.trans hcontains'⟩

end Recorded

theorem homed_empty (tree : FileTree) (i : Input) : Homed tree i ∅ := by
  intro k m hm
  simp at hm

theorem Homed.of_sameCode (h : Homed tree i t) (hcode : t.SameCode t') : Homed tree i t' := by
  intro k m' hm'
  obtain ⟨m, hm, e⟩ := hcode.exists_of_getElem? hm'
  obtain ⟨j, hj, hrecorded⟩ := h k m hm
  exact ⟨j, hj, hrecorded.of_uncounted e⟩

theorem Homed.exists_definer (h : Homed tree i t) {k : String} (hk : k ∈ t) : ∃ j, i.definer? tree k = some j := by
  obtain ⟨m, hm⟩ := mem_iff_exists_getElem?.1 hk
  obtain ⟨j, hj, -⟩ := h k m hm
  exact ⟨j, hj⟩

/-- **Step**: a definition of a source for a name that stands for it. -/
theorem Homed.define {s s' : Symbols} {b : Block} {free : String → String → Prop} (h : Homed tree i s.macros)
    (hs : s.macros.Proper free) (hstep : s.define b = .ok s') (hblock : i.block? b.name = some b)
    (hself : i.definer? tree b.name = some i) : Homed tree i s'.macros := by
  intro k m hm
  by_cases hk : b.name = k
  · subst hk
    refine ⟨i, hself, hblock, Symbols.describes_define hs hstep hm, fun x => h.exists_definer,
      fun x c j hc hj => ?_⟩
    obtain ⟨j', hj', hrecorded⟩ := h x c hc
    cases hj.symm.trans hj'
    exact hrecorded
  · -- all other records are as before, up to their counters
    have hmem : k ∈ s.macros := ((Symbols.mem_define hstep).1 (mem_iff_exists_getElem?.2 ⟨m, hm⟩)).resolve_left hk
    obtain ⟨m₀, hm₀⟩ := mem_iff_exists_getElem?.1 hmem
    obtain ⟨m₁, hm₁, e⟩ := Symbols.extends_define hstep k m₀ hm₀
    cases hm.symm.trans hm₁
    obtain ⟨j, hj, hrecorded⟩ := h k m₀ hm₀
    exact ⟨j, hj, hrecorded.of_uncounted e⟩

/-! ## Import statements -/

theorem Input.lines_of_readAll {lines : List Line} (h : Line.readAll i.origin.name i.text = .ok lines) :
    i.lines = lines := by
  unfold Input.lines
  rw [h]
  rfl

theorem Input.lines_of_load {lines : List Line} {s s' : Symbols}
    (h : load tree i.chain s i.origin i.text = .ok (lines, s')) : i.lines = lines :=
  lines_of_readAll (load_eq_ok h).1

theorem Input.brought?_of_names {line : Line} {clause : ImportClause} {f : tree.TextFile}
    (h : Names tree i.origin.directory line clause f) (k : String) : i.brought? tree k line =
      if clause.selection.takes k && ((i.opened clause f).block? k).isSome
        then some (i.opened clause f) else none := by
  unfold brought?
  rw [h.1]
  simp only [h.2, Option.bind_some]

section Select

variable {selection : Selection} {blocks selected : List Block} (h : select selection blocks = .ok selected)
  {k : String}
include h

/-- The first definition for a name that is selected is the first one of the file. -/
theorem find?_of_select {b : Block} (hb : selected.find? (·.name == k) = some b) :
    selection.takes k = true ∧ blocks.find? (·.name == k) = some b := by
  cases selection with
  | all =>
    cases h
    exact ⟨rfl, hb⟩
  | names names =>
    obtain ⟨-, rfl⟩ := select_names_eq_ok_iff.1 h
    have hname : b.name = k := by simpa using List.find?_some hb
    have htakes : names.contains k = true := by
      have hmem := List.mem_of_find?_eq_some hb
      rw [List.mem_filter, hname] at hmem
      exact hmem.2
    refine ⟨htakes, ?_⟩
    rw [List.find?_filter] at hb
    rw [← hb]
    congr 1
    funext b'
    by_cases hb' : b'.name = k
    · simp [hb', List.contains_iff_mem.1 htakes]
    · simp [hb']

theorem exists_of_takes_iff :
    (∃ b ∈ selected, b.name = k) ↔ selection.takes k = true ∧ (blocks.find? (·.name == k)).isSome = true := by
  constructor
  · rintro ⟨b₀, hb₀, rfl⟩
    have hfound : (selected.find? (·.name == b₀.name)).isSome = true :=
      List.find?_isSome.2 ⟨b₀, hb₀, beq_self_eq_true b₀.name⟩
    obtain ⟨b, hb⟩ := Option.isSome_iff_exists.1 hfound
    obtain ⟨htakes, hfind⟩ := find?_of_select h hb
    exact ⟨htakes, hfind ▸ rfl⟩
  · rintro ⟨htakes, hfind⟩
    rw [exists_of_select_iff h]
    cases selection with
    | all =>
      have hfound : ∃ b ∈ blocks, b.name = k := by simpa using hfind
      exact hfound
    | names names => exact List.contains_iff_mem.1 htakes

end Select

theorem mem_copy_iff {source target : MacroTable} {blocks : List Block} (hsource : ∀ b ∈ blocks, b.name ∈ source)
    {k : String} : k ∈ copy source target blocks ↔ k ∈ target ∨ ∃ b ∈ blocks, b.name = k := by
  rw [mem_iff_exists_getElem?, getElem?_copy]
  split_ifs with hk
  · exact iff_of_true (mem_iff_exists_getElem?.1 hk.2) (.inr hk.1)
  · rw [← mem_iff_exists_getElem?]
    refine ⟨.inl, fun h => h.resolve_right ?_⟩
    rintro ⟨b, hb, rfl⟩
    exact hk ⟨⟨b, hb, rfl⟩, hsource b hb⟩

section Add

variable {s s' inner inner' : Symbols} {done rest lines : List Line} {line : Line} {clause : ImportClause}
  {f : tree.TextFile} {blocks : List Block}

theorem Input.brought?_isSome_iff (hnames : Names tree i.origin.directory line clause f)
    (hload : load tree (f.location :: i.chain) {} (originOf clause i.origin.directory) f.text = .ok (lines, inner))
    (hselect : select clause.selection (Block.split lines).1 = .ok blocks) {k : String} :
    (i.brought? tree k line).isSome = true ↔ ∃ b ∈ blocks, b.name = k := by
  have hlines : (i.opened clause f).lines = lines := lines_of_load hload
  rw [exists_of_takes_iff hselect, brought?_of_names hnames, block?, hlines, ← Bool.and_eq_true_iff]
  split_ifs with hboth
  · exact iff_of_true rfl hboth
  · exact iff_of_false Bool.false_ne_true hboth

/-- An import statement adds the names that it brings. -/
theorem mem_add_iff (h : add tree i.chain i.origin.directory s line = .ok s') {k : String} :
    k ∈ s'.macros ↔ k ∈ s.macros ∨ (i.brought? tree k line).isSome = true := by
  obtain ⟨clause, f, lines, inner, inner', blocks, hnames, -, hload, hselect, -, hinner, rfl⟩ := add_eq_ok_iff.1 h
  rw [Input.brought?_isSome_iff hnames hload hselect]
  exact mem_copy_iff fun b hb => (Symbols.mem_defineAll hinner).2 (.inr ⟨b, hb, rfl⟩)

theorem mem_foldlM_add_iff (h : done.foldlM (add tree i.chain i.origin.directory) s = .ok s') {k : String} :
    k ∈ s'.macros ↔ k ∈ s.macros ∨ (done.findSome? (i.brought? tree k)).isSome = true := by
  induction done generalizing s with
  | nil =>
    cases h
    simp
  | cons line done ih =>
    rw [List.foldlM_cons, bind_eq_ok] at h
    obtain ⟨s₁, hs₁, h⟩ := h
    rw [ih h, mem_add_iff hs₁, List.findSome?_cons]
    cases i.brought? tree k line <;> simp

end Add

/-! ## Sources -/

section Load

variable {lines : List Line} {s inner : Symbols}

/-- The names in the table of a source that is loaded are those that its import statements bring. -/
theorem mem_load_iff (h : load tree i.chain {} i.origin i.text = .ok (lines, s)) {k : String} :
    k ∈ s.macros ↔ ((i.lines.filter Line.isImport).findSome? (i.brought? tree k)).isSome = true := by
  rw [Input.lines_of_load h, mem_foldlM_add_iff (load_eq_ok h).2]
  simp

/-- A name that no import statement brings stands for the macro that the source defines. -/
theorem Input.definer?_self (h : load tree i.chain {} i.origin i.text = .ok (lines, s)) {k : String} {b : Block}
    (hk : k ∉ s.macros) (hblock : i.block? k = some b) : i.definer? tree k = some i := by
  have hnone : (i.lines.filter Line.isImport).findSome? (i.brought? tree k) = none := by
    rw [← Option.not_isSome_iff_eq_none, ← mem_load_iff h]
    exact hk
  rw [definer?, hnone, Option.none_or, hblock]
  rfl

end Load

section Homed

variable {s inner inner' : Symbols} {done rest lines : List Line} {line : Line} {clause : ImportClause}
  {f : tree.TextFile} {blocks : List Block}

/-- **Run**: definitions that are selected from a source, one after the other. -/
theorem Homed.foldlM_define {t : Symbols} {selection : Selection} {before after : List Block}
    (h : Homed tree i inner.macros) (hload : load tree i.chain {} i.origin i.text = .ok (lines, inner))
    (hs : s.macros = inner.macros) (hselect : select selection (Block.split lines).1 = .ok (before ++ after))
    (ht : before.foldlM Symbols.define s = .ok t) : Homed tree i t.macros := by
  induction before using List.reverseRecOn generalizing t after with
  | nil =>
    cases ht
    exact hs ▸ h
  | append_singleton before b ih =>
    rw [List.foldlM_append, bind_eq_ok] at ht
    obtain ⟨t₁, ht₁, ht⟩ := ht
    obtain ⟨t₂, hstep, ht⟩ := bind_eq_ok.1 ht
    cases ht
    rw [List.append_assoc, List.singleton_append] at hselect
    have hproper : t₁.macros.Proper fun _ _ => True := by
      refine (Symbols.defineAll_proper ?_ ?_ (fun _ _ _ _ _ => trivial) ht₁).1
      · exact hs ▸ .of_closed (load_closed hload).1
      · have hlines := (Block.split_forall Line.Faithful.blanked (Line.faithful_of_readAll (load_eq_ok hload).1)).1
        exact fun b' hb' l hl => (hlines b' (mem_of_select hselect b' (List.mem_append_left _ hb')) l hl).inRange
    -- a definition for a name that is not in the table is the first one for it
    have hnew : b.name ∉ t₁.macros := by
      obtain ⟨-, -, -, hname, -⟩ := Symbols.define_eq_ok hstep
      exact hname
    rw [Symbols.mem_defineAll ht₁, not_or, hs] at hnew
    have hblock : i.block? b.name = some b := by
      rw [Input.block?, Input.lines_of_load hload]
      refine (find?_of_select hselect ?_).2
      rw [List.find?_append, List.find?_eq_none.2 fun b' hb' he => hnew.2 ⟨b', hb', beq_iff_eq.1 he⟩]
      simp
    exact (ih hselect ht₁).define hproper hstep hblock (Input.definer?_self hload hnew.1 hblock)

/-- **Step**: while records are copied, they belong to definitions of the file of the statement, which is the first
one for their names. -/
theorem Homed.copy (h : Homed tree i s.macros)
    (hdone : done.foldlM (add tree i.chain i.origin.directory) {} = .ok s)
    (himports : i.lines.filter Line.isImport = done ++ line :: rest)
    (hnames : Names tree i.origin.directory line clause f)
    (hload : load tree (f.location :: i.chain) {} (originOf clause i.origin.directory) f.text =
      .ok (lines, inner))
    (hselect : select clause.selection (Block.split lines).1 = .ok blocks)
    (hnew : checkNew s.macros blocks = .ok ()) (hinner : blocks.foldlM Symbols.define inner = .ok inner')
    (hfile : Homed tree (i.opened clause f) inner'.macros) {before : List Block} (hbefore : before ⊆ blocks) :
    Homed tree i (copy inner'.macros s.macros before) := by
  intro k m hm
  rw [getElem?_copy] at hm
  split_ifs at hm with hk
  · obtain ⟨⟨b₀, hb₀, rfl⟩, -⟩ := hk
    obtain ⟨j, hj, hrecorded⟩ := hfile b₀.name m hm
    -- the file defines the macro itself
    obtain ⟨htakes, hsome⟩ := (exists_of_takes_iff hselect).1 ⟨b₀, hbefore hb₀, rfl⟩
    obtain ⟨b, hfind⟩ := Option.isSome_iff_exists.1 hsome
    have hblock : (i.opened clause f).block? b₀.name = some b := by
      rw [Input.block?, Input.lines_of_load (i := i.opened clause f) hload, hfind]
    have hself : (i.opened clause f).definer? tree b₀.name = some (i.opened clause f) :=
      Input.definer?_self hload (Symbols.checkName_of_defineAll hinner (hbefore hb₀)).2 hblock
    cases hself.symm.trans hj
    have hbrought : i.brought? tree b₀.name line = some (i.opened clause f) := by
      rw [Input.brought?_of_names hnames, htakes, hblock]
      rfl
    -- the name is new, so that no statement before brings it
    have hfirst : done.findSome? (i.brought? tree b₀.name) = none := by
      rw [← Option.not_isSome_iff_eq_none]
      exact fun hsome => checkNew_eq_ok_iff.1 hnew b₀ (hbefore hb₀) ((mem_foldlM_add_iff hdone).2 (.inr hsome))
    refine ⟨i.opened clause f, ?_, hrecorded⟩
    rw [Input.definer?, himports, List.findSome?_append, hfirst, Option.none_or, List.findSome?_cons, hbrought]
    rfl
  · exact h k m hm

/-- **Run**: import statements one after the other, if their files are loaded as they should be. -/
theorem homed_foldlM_add (himports : i.lines.filter Line.isImport = done ++ rest)
    (hfiles : ∀ (clause : ImportClause) (f : tree.TextFile) (lines : List Line) (inner : Symbols),
      f.location ∉ i.chain →
      load tree (f.location :: i.chain) {} (originOf clause i.origin.directory) f.text = .ok (lines, inner) →
      Homed tree (i.opened clause f) inner.macros)
    (h : done.foldlM (add tree i.chain i.origin.directory) {} = .ok s) : Homed tree i s.macros := by
  induction done using List.reverseRecOn generalizing s rest with
  | nil =>
    cases h
    exact homed_empty tree i
  | append_singleton done line ih =>
    rw [List.foldlM_append, bind_eq_ok] at h
    obtain ⟨s₁, hs₁, h⟩ := h
    rw [List.append_assoc, List.singleton_append] at himports
    obtain ⟨s₂, hstep, h⟩ := bind_eq_ok.1 h
    cases h
    obtain ⟨clause, f, lines, inner, inner', blocks, hnames, hf, hload, hselect, hnew, hinner, rfl⟩ :=
      add_eq_ok_iff.1 hstep
    have hfile : Homed tree (i.opened clause f) inner'.macros := by
      rw [← List.append_nil blocks] at hselect
      exact (hfiles clause f lines inner hf hload).foldlM_define hload rfl hselect hinner
    exact (ih himports hs₁).copy hs₁ himports hnames hload hselect hnew hinner hfile (List.Subset.refl _)

/-- **The records of a source that is loaded** belong to the definitions that their names stand for, however deep
the imports go. -/
theorem homed_load (h : load tree i.chain {} i.origin i.text = .ok (lines, s)) : Homed tree i s.macros := by
  induction hn : tree.unopened i.chain using Nat.strongRecOn generalizing i lines s with
  | _ n ih =>
    have hadd := (load_eq_ok h).2
    rw [← Input.lines_of_load h] at hadd
    refine homed_foldlM_add (List.append_nil _).symm (fun clause f lines' inner hf hload => ?_) hadd
    exact ih _ (hn ▸ FileTree.unopened_cons_lt f.mem hf) (i := i.opened clause f) hload rfl

theorem AtImport.homed {chain : List Location} {origin : Origin} {text : String}
    (h : AtImport tree chain origin text s rest) : ∃ done,
      (Input.mk chain origin text).lines.filter Line.isImport = done ++ rest ∧
      done.foldlM (add tree chain origin.directory) {} = .ok s ∧ Homed tree ⟨chain, origin, text⟩ s.macros := by
  obtain ⟨lines, done, hread, himports, hadd⟩ := h
  have hlines : (Input.mk chain origin text).lines = lines := Input.lines_of_readAll
    (readChecked_eq_ok_iff.1 hread).1
  rw [← hlines] at himports
  exact ⟨done, himports, hadd, homed_foldlM_add himports (fun _ _ _ _ _ hload => homed_load hload) hadd⟩

/-- Definitions that are selected from a source, at every moment. -/
theorem homed_defining {t : Symbols} {selection : Selection}
    (hload : load tree i.chain {} i.origin i.text = .ok (lines, inner))
    (hselect : select selection (Block.split lines).1 = .ok blocks) (ht : s.Defining blocks t)
    (hs : s.macros = inner.macros) : Homed tree i t.macros := by
  cases ht with
  | between hsplit ht => exact (homed_load hload).foldlM_define hload hs (hsplit ▸ hselect) ht
  | within hsplit ht _ _ _ _ _ hd =>
    exact ((homed_load hload).foldlM_define hload hs (hsplit ▸ hselect) ht).of_sameCode
      (Block.Draft.sameCode_foldlM hd).1

end Homed

end Import

/-! ## States of a run -/

namespace Assembly

open Import (Input Homed)

variable {tree : FileTree} {origin : Origin} {text : String}

/-- The source of a run itself. -/
def rootInput (tree : FileTree) (origin : Origin) (text : String) : Input :=
    ⟨Import.rootChain tree origin, origin, text⟩

theorem homed_root {p : Prepared} {t : Symbols} (hp : (prepare tree origin text).2 = .ok p)
    (ht : p.symbols.Defining p.blocks t) : Homed tree (rootInput tree origin text) t.macros := by
  obtain ⟨lines, s, hload, -, rfl⟩ := prepare_eq_ok hp
  -- the source itself defines all its macros
  have hselect : Import.select .all (Block.split lines).1 = .ok (Block.split lines).1 := rfl
  exact Import.homed_defining (i := rootInput tree origin text) hload hselect ht rfl

/-- **The records of every table that a run meets** belong to the definitions that their names stand for in the
source of the table. -/
theorem Context.exists_input {owner : Import.Owner} {s : Symbols} (h : Context tree origin text owner s) :
    ∃ i : Input, Import.Loading tree origin text owner i.chain i.origin i.text ∧ Homed tree i s.macros := by
  have hroot : ∀ {s : Symbols}, Homed tree (rootInput tree origin text) s.macros →
      ∃ i : Input, Import.Loading tree origin text .root i.chain i.origin i.text ∧ Homed tree i s.macros :=
    fun hhomed => ⟨rootInput tree origin text, .root, hhomed⟩
  cases h with
  | @importing _ chain origin' text' s rest h hs =>
    obtain ⟨-, -, -, hhomed⟩ := hs.homed
    exact ⟨⟨chain, origin', text'⟩, h, hhomed⟩
  | selecting h ht =>
    obtain ⟨hloading, hs, hnames, hf, hload, hselect, -⟩ := h
    exact ⟨⟨_, _, _⟩, .imported hloading hs hnames hf, Import.homed_defining hload hselect ht rfl⟩
  | copying h ht =>
    obtain ⟨hloading, hs, hnames, -, hload, hselect, hnew⟩ := h
    obtain ⟨done, himports, hdone, hhomed⟩ := hs.homed
    have hfile := Import.homed_defining (i := ⟨_, _, _⟩) hload hselect (.between (List.append_nil _).symm ht) rfl
    exact ⟨⟨_, _, _⟩, hloading, hhomed.copy hdone himports hnames hload hselect hnew ht hfile
      (List.subset_append_left _ _)⟩
  | registering h _ =>
    have hhomed := Import.homed_load (i := rootInput tree origin text) h
    exact ⟨rootInput tree origin text, .root, hhomed⟩
  | defining hp ht => exact hroot (homed_root hp ht)
  | expanding hp hs₀ _ hs =>
    exact hroot (Homed.of_sameCode (homed_root hp (.between (List.append_nil _).symm hs₀))
      (Symbols.expandAll_keeps hs).1)
  | addressing h hl =>
    obtain ⟨p, s₀, hp, hs₀, hs⟩ := stream_eq_ok h
    exact hroot (Homed.of_sameCode (homed_root hp (.between (List.append_nil _).symm hs₀))
      (Symbols.expandAll_keeps hs).1)

end Assembly

end Abcout
