import Abcout.Proofs.Macros

/-!
# Abcout.Proofs.Inlining — the record of a definition, line by line

`Line.weight t line` is the number of instructions that a line of a definition stands for, with the macros of the
table `t`.  `b.RecordedAs t m` says what the record `m` of the definition `b` is, in terms of `t` alone:

* an instruction of `b` stands in the body as it was written, behind as many instructions as the lines before it
  weigh;
* a call stands there as a copy of the body of the macro that is called, renamed apart;
* the local labels are those that `b` declares, and others with reserved names.

`Symbols.recorded_of_mem`: this is so for all definitions of a source, with the table that they lead to.
-/

namespace Abcout

namespace Line

/-- The number of instructions that a line of a definition stands for. -/
def weight (t : MacroTable) (line : Line) : Nat :=
  match line.statement with
  | .instruction _ => 1
  | .call name _ => (t[name]?.map fun m => (instructions m.body).length).getD 0
  | _ => 0

/-- The number of instructions that lines of a definition stand for. -/
def weights (t : MacroTable) : List Line → Nat
  | [] => 0
  | line :: rest => weight t line + weights t rest

end Line

namespace Block

namespace Draft

variable {b : Block} {params : Nat} {d d' : Draft} {line : Line} {t : MacroTable}

/-! ## The body -/

/-- What a line adds to the body. -/
theorem body_step (h : d.step b params line = .ok d') : ∃ piece, d'.body.toList = d.body.toList ++ piece ∧
    (∀ ops, line.statement = .instruction ops → piece = [line]) ∧
    (∀ name args, line.statement = .call name args → ∃ m, d.symbols.macros[name]? = some m ∧
      piece = m.instantiate args ((Scope.definition params d.locals).freshNames d.symbols.labels name m) line) ∧
    ((∀ ops, line.statement ≠ .instruction ops) → (∀ name args, line.statement ≠ .call name args) →
      Line.instructions piece = []) := by
  rcases step_eq_ok h with ⟨hl, rfl⟩ | ⟨name, hl, rfl⟩ | ⟨ops, hl, -, rfl⟩ |
    ⟨name, args, lines, symbols, hl, he, rfl⟩
  · exact ⟨[], (List.append_nil _).symm, by simp [hl], by simp [hl], fun _ _ => rfl⟩
  · exact ⟨[line], Array.toList_push, by simp [hl], by simp [hl], fun _ _ => Line.instructions_cons_label [] hl⟩
  · exact ⟨[line], Array.toList_push, fun _ _ => rfl, by simp [hl], fun hops => absurd hl (hops ops)⟩
  · obtain ⟨m, hm, hlines, -, -⟩ := Symbols.expand_eq_ok_iff.1 he
    refine ⟨lines, by simp, by simp [hl], ?_, fun _ hcall => absurd hl (hcall name args)⟩
    intro name' args' hl'
    rw [hl] at hl'
    cases hl'
    exact ⟨m, hm, hlines⟩

theorem length_step (ht : d.symbols.macros.Extends t) (h : d.step b params line = .ok d') :
    (Line.instructions d'.body.toList).length = (Line.instructions d.body.toList).length + line.weight t := by
  obtain ⟨piece, hbody, hops, hcall, hother⟩ := body_step h
  rw [hbody, Line.instructions_append, List.length_append]
  congr 1
  unfold Line.weight
  split
  · rename_i ops hl
    rw [hops ops hl, Line.instructions_cons_instruction [] hl]
    rfl
  · rename_i name args hl
    obtain ⟨m, hm, rfl⟩ := hcall name args hl
    obtain ⟨m', hm', e⟩ := ht name m hm
    rw [instructions_instantiate, List.length_map, hm', Macro.body_eq_of_uncounted e]
    rfl
  · rename_i hl hl'
    rw [hother hl hl']
    rfl

/-- The lines of a definition put as many instructions into the body as they weigh. -/
theorem length_foldlM {lines : List Line} (ht : d.symbols.macros.Extends t)
    (h : lines.foldlM (step b params) d = .ok d') :
    (Line.instructions d'.body.toList).length = (Line.instructions d.body.toList).length +
      Line.weights t lines := by
  induction lines generalizing d with
  | nil =>
    cases h
    rfl
  | cons line rest ih =>
    rw [List.foldlM_cons, bind_eq_ok] at h
    obtain ⟨d₁, hd₁, h⟩ := h
    have ht₁ : d₁.symbols.macros.Extends t := (sameCode_step hd₁).1.symm.extends.trans ht
    rw [ih ht₁ h, length_step ht hd₁, Line.weights, Nat.add_assoc]

theorem body_foldlM {lines : List Line} (h : lines.foldlM (step b params) d = .ok d') :
    d.body.toList <+: d'.body.toList := by
  refine foldlM_keeps (fun (e : Draft) _ => d.body.toList <+: e.body.toList) ?_ (List.prefix_refl _) h
  intro e line rest e' he hstep
  obtain ⟨piece, hbody, -⟩ := body_step hstep
  exact he.trans (hbody ▸ List.prefix_append _ _)

/-- The draft at one of its lines: what stands before it, what it adds, and what follows. -/
theorem exists_at {before after : List Line} (ht : d.symbols.macros.Extends t)
    (h : (before ++ line :: after).foldlM (step b params) d = .ok d') :
    ∃ d₁ d₂ post, before.foldlM (step b params) d = .ok d₁ ∧ step b params d₁ line = .ok d₂ ∧
      (Line.instructions d₁.body.toList).length =
        (Line.instructions d.body.toList).length + Line.weights t before ∧
      d'.body.toList = d₂.body.toList ++ post := by
  obtain ⟨d₁, d₂, hd₁, hd₂, h⟩ := exists_of_foldlM_append_cons h
  obtain ⟨post, hpost⟩ := body_foldlM h
  exact ⟨d₁, d₂, post, hd₁, hd₂, length_foldlM ht hd₁, hpost.symm⟩

/-! ## Local labels -/

/-- The local labels of a definition are those that it declares itself, and others with reserved names. -/
structure Scoped (b : Block) (d : Draft) : Prop where
  macros : d.symbols.macros.All Macro.WellFormed
  of_declared : ∀ x ∈ Line.declared b.body, x ∈ d.locals
  declared_or_reserved : ∀ x ∈ d.locals, x ∈ Line.declared b.body ∨ Reserved x

theorem Scoped.step (hs : d.Scoped b) (h : d.step b params line = .ok d') : d'.Scoped b := by
  have hwf := hs.macros.of_sameCode (sameCode_step h).1 .of_uncounted
  rcases step_eq_ok h with ⟨-, rfl⟩ | ⟨name, -, rfl⟩ | ⟨ops, -, -, rfl⟩ | ⟨name, args, lines, symbols, -, he, rfl⟩
  · exact hs
  · exact ⟨hwf, hs.of_declared, hs.declared_or_reserved⟩
  · exact ⟨hwf, hs.of_declared, hs.declared_or_reserved⟩
  · obtain ⟨m, hm, hlines, -, -⟩ := Symbols.expand_eq_ok_iff.1 he
    refine ⟨hwf, fun x hx => NameSet.mem_insertMany_names.2 (.inl (hs.of_declared x hx)), fun x hx => ?_⟩
    rcases NameSet.mem_insertMany_names.1 hx with hx | hx
    · exact hs.declared_or_reserved x hx
    · -- the labels of an expansion are new names of local labels
      rw [hlines, declared_instantiate] at hx
      obtain ⟨l, hl, rfl⟩ := List.mem_map.1 hx
      exact .inr (Scope.freshNames_reserved (((hs.macros name m hm).mem_locals l).2 hl))

theorem Scoped.foldlM {lines : List Line} (hs : d.Scoped b) (h : lines.foldlM (Draft.step b params) d = .ok d') :
    d'.Scoped b :=
  foldlM_keeps (fun (e : Draft) _ => e.Scoped b) (fun _ _ _ _ he hstep => he.step hstep) hs h

theorem Scoped.start {s : Symbols} {locals : NameSet} (hs : s.macros.All Macro.WellFormed)
    (hlocals : b.body.foldlM addLocal ∅ = .ok locals) : Scoped b { symbols := s, locals } := by
  obtain ⟨-, -, hmem⟩ := foldlM_addLocal hlocals
  exact ⟨hs, fun x hx => (hmem x).2 (.inr hx), fun x hx => .inl (((hmem x).1 hx).resolve_left (by simp))⟩

end Draft

/-! ## Records -/

/-- The record of a definition, with the macros of the table `t`. -/
structure RecordedAs (t : MacroTable) (b : Block) (m : Macro) : Prop where
  get : t[b.name]? = some m
  wellFormed : m.WellFormed
  of_declared : ∀ x ∈ Line.declared b.body, x ∈ m.locals
  declared_or_reserved : ∀ x ∈ m.locals, x ∈ Line.declared b.body ∨ Reserved x
  own : ∀ (before : List Line) (line : Line) (after : List Line) (ops : List Operand),
    b.body = before ++ line :: after → line.statement = .instruction ops →
    ∃ pre post, m.body = pre ++ [line] ++ post ∧ (Line.instructions pre).length = Line.weights t before
  inlined : ∀ (before : List Line) (line : Line) (after : List Line) (name : String) (args : List Operand),
    b.body = before ++ line :: after → line.statement = .call name args →
    ∃ pre post c r, t[name]? = some c ∧ m.body = pre ++ c.instantiate args r line ++ post ∧
      (Line.instructions pre).length = Line.weights t before ∧ (∀ l, l ∉ c.locals → r.apply l = l) ∧
      ∀ l ∈ c.locals, ∀ l' ∈ c.locals, r.apply l = r.apply l' → l = l'

end Block

namespace Symbols

variable {s s' : Symbols} {b : Block} {t : MacroTable}

/-- **What a definition records**, told with any later table. -/
theorem recorded_of_define (hs : s.macros.All Macro.WellFormed) (hb : ∀ l ∈ b.body, l.InRange)
    (h : s.define b = .ok s') (ht : s'.macros.Extends t) : ∃ m, b.RecordedAs t m := by
  have hwf := (define_wellFormed hs hb h).1
  have hextends := (extends_define h).trans ht
  obtain ⟨params, locals, d, -, hlocals, hd, rfl⟩ := define_eq_ok h
  have hscoped := (Block.Draft.Scoped.start hs hlocals).foldlM hd
  have hget := getElem?_insert_name d.symbols.macros b.name b.name
    ⟨params, d.body.toList, d.dependencies, d.locals, 0, 0⟩
  rw [if_pos rfl] at hget
  obtain ⟨m, hm, e⟩ := ht b.name _ hget
  have hbody : d.body.toList = m.body := Macro.body_eq_of_uncounted e
  have hloc : d.locals = m.locals := Macro.locals_eq_of_uncounted e
  refine ⟨m, hm, (hwf b.name _ hget).of_uncounted e, hloc ▸ hscoped.of_declared,
    hloc ▸ hscoped.declared_or_reserved, ?_, ?_⟩
  · intro before line after ops hsplit hl
    rw [hsplit] at hd
    obtain ⟨d₁, d₂, post, -, hstep, hlen, hpost⟩ := Block.Draft.exists_at hextends hd
    obtain ⟨piece, hpiece, hops, -, -⟩ := Block.Draft.body_step hstep
    refine ⟨d₁.body.toList, post, ?_, by simpa using hlen⟩
    rw [← hbody, hpost, hpiece, hops ops hl]
  · intro before line after name args hsplit hl
    rw [hsplit] at hd
    obtain ⟨d₁, d₂, post, hd₁, hstep, hlen, hpost⟩ := Block.Draft.exists_at hextends hd
    obtain ⟨piece, hpiece, -, hcall, -⟩ := Block.Draft.body_step hstep
    obtain ⟨c₁, hc₁, rfl⟩ := hcall name args hl
    -- the macro that is called has the same code in the later table
    obtain ⟨c, hc, ec⟩ := ((Block.Draft.sameCode_foldlM hd₁).1.symm.extends.trans hextends) name c₁ hc₁
    have hlocals := Macro.locals_eq_of_uncounted ec
    refine ⟨d₁.body.toList, post, c, (Scope.definition params d₁.locals).freshNames d₁.symbols.labels name c₁, hc,
      ?_, by simpa using hlen,
      fun l hl => Scope.freshNames_of_notMem (hlocals ▸ hl),
      fun l hl l' hl' => Scope.freshNames_inj (hlocals ▸ hl) (hlocals ▸ hl')⟩
    rw [← hbody, hpost, hpiece, Macro.instantiate, Macro.instantiate, Macro.body_eq_of_uncounted ec]

/-- **Run**: the definitions of a source are recorded in the table that they lead to. -/
theorem recorded_of_mem {blocks : List Block} (hs : s.macros.All Macro.WellFormed)
    (hb : ∀ b ∈ blocks, ∀ l ∈ b.body, l.InRange) (h : blocks.foldlM Symbols.define s = .ok s')
    (hmem : b ∈ blocks) : ∃ m, b.RecordedAs s'.macros m := by
  obtain ⟨before, after, rfl⟩ := List.append_of_mem hmem
  obtain ⟨s₁, s₂, hs₁, hs₂, h⟩ := exists_of_foldlM_append_cons h
  have hwf := (defineAll_wellFormed hs (fun b' hb' => hb b' (List.mem_append_left _ hb')) hs₁).1
  refine recorded_of_define hwf (hb b hmem) hs₂ ?_
  refine foldlM_define_keeps (P := fun t => s₂.macros.Extends t.macros) ?_ (.refl _) h
  intro t t' b' ht _ hstep
  exact ht.trans (extends_define hstep)

end Symbols

end Abcout
