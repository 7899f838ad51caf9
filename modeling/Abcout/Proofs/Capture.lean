import Abcout.Proofs.Calls
import Abcout.Proofs.Contexts
import Abcout.Proofs.Inlining

/-!
# Abcout.Proofs.Capture — what a label that is written in a definition stands for

A call in a definition is replaced by the body of its macro, and only then are local labels renamed.  A label that
is free in that body can therefore be captured: it stands for the label of the innermost definition around it that
declares one of this name, and for the label of the program only if there is none.

* `Written`: where an instruction of an expansion was written, and in which definitions it was inlined.
* `captor?`: the innermost of these definitions that declares a label.
* `Written.carries`: how the label stands in the record of the outermost definition; the induction is on the
  inlining.
* `Assembly.run_resolves_written_labels`: what it stands for in the program that is emitted.
-/

namespace Abcout

/-! ## Where instructions are written -/

/-- Instruction `i` of an expansion of `b` was written with the operands `ops`.  `chain` are the definitions around
it, from the one in which it was written to `b`, each with the number of instructions of the expansion of `b`
before its own. -/
inductive Written (t : MacroTable) (blocks : List Block) : Block → Nat → List Operand → List (Block × Nat) → Prop
  | own {b : Block} {before after : List Line} {line : Line} {ops : List Operand}
      (hbody : b.body = before ++ line :: after) (hl : line.statement = .instruction ops) :
      Written t blocks b (Line.weights t before) ops [(b, 0)]
  | inlined {b c : Block} {before after : List Line} {line : Line} {args : List Operand} {i : Nat}
      {ops : List Operand} {chain : List (Block × Nat)} (hc : c ∈ blocks)
      (hbody : b.body = before ++ line :: after) (hl : line.statement = .call c.name args)
      (h : Written t blocks c i ops chain) : Written t blocks b (Line.weights t before + i) ops
        (chain.map (fun e => (e.1, Line.weights t before + e.2)) ++ [(b, 0)])

/-- The innermost of some definitions that declares a label. -/
def captor? (x : String) (chain : List (Block × Nat)) : Option (Block × Nat) :=
  chain.find? fun e => x ∈ Line.declared e.1.body

theorem captor?_inlined (x : String) (chain : List (Block × Nat)) (k : Nat) (b : Block) :
    captor? x (chain.map (fun e => (e.1, k + e.2)) ++ [(b, 0)]) =
      ((captor? x chain).map fun e => (e.1, k + e.2)).or (captor? x [(b, 0)]) := by
  unfold captor?
  rw [List.find?_append, List.find?_map]
  rfl

/-- How a label `x`, written inside of `chain`, stands in the record `m` of the outermost definition: as it is and
free, or under the name of a local label, at the place where the captor declares `x`. -/
inductive Macro.Carries (t : MacroTable) (m : Macro) (chain : List (Block × Nat)) (x : String) : String → Prop
  | free (hchain : captor? x chain = none) (hx : x ∉ m.locals) : Carries t m chain x x
  | bound {c : Block} {start n : Nat} {mc : Macro} {y : String} (hchain : captor? x chain = some (c, start))
      (hc : t[c.name]? = some mc) (hn : Line.position? x mc.body = some n) (hy : y ∈ m.locals)
      (hpos : Line.position? y m.body = some (start + n)) : Carries t m chain x y

section Records

variable {t : MacroTable} {blocks : List Block} {b c : Block} {m mc : Macro} {chain : List (Block × Nat)}
  {x y : String}

theorem Line.getElem?_instructions_middle {pre piece post : List Line} {i : Nat} {ops : List Operand}
    (h : (Line.instructions piece)[i]? = some ops) :
    (Line.instructions (pre ++ piece ++ post))[(Line.instructions pre).length + i]? = some ops := by
  rw [List.append_assoc, Line.instructions_append, List.getElem?_append_right (Nat.le_add_right _ _),
    Nat.add_sub_cancel_left, Line.instructions_append, List.getElem?_append_left, h]
  exact (List.getElem?_eq_some_iff.1 h).1

/-- A label that reaches the outermost definition as it is: this definition declares it, or nothing does. -/
theorem Block.RecordedAs.carries_self (hm : b.RecordedAs t m) (hx : ¬ Reserved x)
    (hchain : captor? x chain = captor? x [(b, 0)]) : m.Carries t chain x x := by
  by_cases hdecl : x ∈ Line.declared b.body
  · have hlocal := hm.of_declared x hdecl
    obtain ⟨n, hn⟩ := Line.exists_position? ((hm.wellFormed.mem_locals x).1 hlocal)
    refine .bound (hchain.trans ?_) hm.get hn hlocal (by rw [hn, Nat.zero_add])
    simp [captor?, hdecl]
  · refine .free (hchain.trans ?_) fun hlocal => ?_
    · simp [captor?, hdecl]
    · rcases hm.declared_or_reserved x hlocal with h | h
      · exact hdecl h
      · exact hx h

/-- A local label of a body that is inlined stands where it stood in that body, behind what is before it. -/
theorem Macro.WellFormed.position?_inlined (hm : m.WellFormed) (hmc : mc.WellFormed) {pre post : List Line}
    {args : List Operand} {r : Renaming} {line : Line} (hbody : m.body = pre ++ mc.instantiate args r line ++ post)
    (hinj : ∀ l ∈ mc.locals, ∀ l' ∈ mc.locals, r.apply l = r.apply l' → l = l') (hy : y ∈ mc.locals) {n : Nat}
    (hn : Line.position? y mc.body = some n) : r.apply y ∈ m.locals ∧
      Line.position? (r.apply y) m.body = some ((Line.instructions pre).length + n) := by
  have hpiece : r.apply y ∈ Line.declared (mc.instantiate args r line) := by
    rw [Abcout.declared_instantiate]
    exact List.mem_map_of_mem ((hmc.mem_locals y).1 hy)
  have hpos : Line.position? (r.apply y) (mc.instantiate args r line) = some n := by
    rw [position?_instantiate mc args r line fun l hl e => hinj l ((hmc.mem_locals l).2 hl) y hy e, hn]
  have hnodup := hm.nodup
  rw [hbody, List.append_assoc, Line.declared_append, Line.declared_append, List.nodup_append] at hnodup
  -- labels are declared once, so none of those before has this name
  have hpre : r.apply y ∉ Line.declared pre := fun hmem =>
    hnodup.2.2 _ hmem _ (List.mem_append_left _ hpiece) rfl
  constructor
  · rw [hm.mem_locals, hbody, Line.declared_append, Line.declared_append]
    exact List.mem_append_left _ (List.mem_append_right _ hpiece)
  · rw [hbody, List.append_assoc, Line.position?_append_right hpre, Line.position?_append_left hpos,
      Option.map_some]

/-- **A label through all inlining**: the record of the outermost definition has it where it should be. -/
theorem Written.carries (hall : ∀ b ∈ blocks, ∃ m, b.RecordedAs t m) (hx : ¬ Reserved x) {i : Nat} {a a' : Operand}
    (h : Written t blocks b i [a, a', .label x] chain) (hm : b.RecordedAs t m) :
    ∃ a₁ a₁' y, (Line.instructions m.body)[i]? = some [a₁, a₁', .label y] ∧ m.Carries t chain x y := by
  generalize hops : [a, a', .label x] = ops at h
  induction h generalizing m with
  | @own b before after line ops hbody hl =>
    subst hops
    obtain ⟨pre, post, hrecord, hlen⟩ := hm.own _ _ _ _ hbody hl
    refine ⟨a, a', x, ?_, hm.carries_self hx rfl⟩
    have hline : (Line.instructions [line])[0]? = some [a, a', .label x] := by
      rw [Line.instructions_cons_instruction [] hl]
      rfl
    rw [hrecord, ← hlen]
    exact Line.getElem?_instructions_middle hline
  | @inlined b c before after line args i ops chain hc hbody hl _ ih =>
    obtain ⟨mc, hmc⟩ := hall c hc
    obtain ⟨a₁, a₁', y, hget, hcarries⟩ := ih hmc hops
    obtain ⟨pre, post, mc', r, hget', hrecord, hlen, hother, hinj⟩ := hm.inlined _ _ _ _ _ hbody hl
    obtain rfl : mc = mc' := Option.some.inj (hmc.get.symm.trans hget')
    refine ⟨a₁.substitute args r, a₁'.substitute args r, r.apply y, ?_, ?_⟩
    · rw [hrecord, ← hlen]
      refine Line.getElem?_instructions_middle ?_
      rw [instructions_instantiate, List.getElem?_map, hget]
      rfl
    · cases hcarries with
      | free hchain hfree =>
        rw [hother x hfree]
        refine hm.carries_self hx ?_
        rw [captor?_inlined, hchain]
        rfl
      | bound hchain hcaptor hn hy hpos =>
        obtain ⟨hlocal, hposition⟩ := hm.wellFormed.position?_inlined hmc.wellFormed hrecord hinj hy hpos
        refine .bound ?_ hcaptor hn hlocal (by rw [hposition, hlen, Nat.add_assoc])
        rw [captor?_inlined, hchain]
        rfl

end Records

/-- A label in a definition that can be made is declared there, or has a reserved name, or is one of the
program. -/
theorem Symbols.label_of_define {s s' : Symbols} {b : Block} (hs : s.macros.All Macro.WellFormed)
    (h : s.define b = .ok s') {line : Line} (hline : line ∈ b.body) {ops : List Operand}
    (hl : line.statement = .instruction ops) {x : String} (hx : .label x ∈ ops) :
    x ∈ Line.declared b.body ∨ Reserved x ∨ x ∈ s.labels := by
  have hextends := extends_define h
  obtain ⟨params, locals, d, -, hlocals, hd, -⟩ := define_eq_ok h
  have hstart := Block.Draft.Scoped.start hs hlocals
  obtain ⟨before, after, hsplit⟩ := List.append_of_mem hline
  rw [hsplit] at hd
  obtain ⟨d₁, d₂, -, hd₁, hstep, -, -⟩ := Block.Draft.exists_at hextends hd
  rcases Block.Draft.step_eq_ok hstep with ⟨hl', -⟩ | ⟨name, hl', -⟩ | ⟨ops', hl', hcheck, -⟩ |
    ⟨name, args, lines, t, hl', -, -⟩
  all_goals
    rw [hl] at hl'
    cases hl'
  rcases (Scope.checkInstruction_definition.1 hcheck).known_of_mem hx with hlocal | hlabel
  · rcases (hstart.foldlM hd₁).declared_or_reserved x hlocal with h | h
    · exact .inl h
    · exact .inr (.inl h)
  · rw [(Block.Draft.sameCode_foldlM hd₁).2] at hlabel
    exact .inr (.inr hlabel)

/-! ## Runs -/

section Means

variable {m : Macro} {args : List Operand} {S : List Line} {k n v : Nat} {y : String}

theorem Macro.Means.of_notMem (h : m.Means args S k (.label y) v) (hy : y ∉ m.locals) :
    ∃ n, Line.position? y S = some n ∧ v = 6 * n := by
  cases h with
  | localLabel hlocal _ => exact absurd hlocal hy
  | otherLabel _ hn => exact ⟨_, hn, rfl⟩

theorem Macro.Means.of_mem (h : m.Means args S k (.label y) v) (hy : y ∈ m.locals)
    (hn : Line.position? y m.body = some n) : v = 6 * (k + n) := by
  cases h with
  | localLabel _ hn' =>
    cases hn.symm.trans hn'
    rfl
  | otherLabel hother _ => exact absurd hy hother

end Means

namespace Assembly

variable {tree : FileTree} {origin : Origin} {text : String} {product : Product} {p : Prepared} {s₀ s : Symbols}
  {S : List Line}

theorem not_reserved_of_prepare (hp : (prepare tree origin text).2 = .ok p) {x : String}
    (hx : x ∈ Line.declared p.program) : ¬ Reserved x := by
  obtain ⟨lines, s, -, hfault, rfl⟩ := prepare_eq_ok hp
  exact (Label.name_of_register hfault hx).1

/-- What a label of a body becomes in a call of the program. -/
theorem exists_means_of_call (hp : (prepare tree origin text).2 = .ok p)
    (hs₀ : p.blocks.foldlM Symbols.define p.symbols = .ok s₀) (hexp : s₀.expandAll p.program = .ok (S, s))
    (hlay : layOut s.labels S = .ok product) {before after : List Line} {line : Line} {name : String}
    {args : List Operand} (hprogram : p.program = before ++ line :: after) (hl : line.statement = .call name args)
    {m : Macro} (hm : s₀.macros[name]? = some m) :
    ∃ done s₁, s₀.expandAll before = .ok (done, s₁) ∧
      ∀ i a a' y, (Line.instructions m.body)[i]? = some [a, a', .label y] →
        ∃ ins, product.program[(Line.instructions done).length + i]? = some ins ∧
          m.Means args S (Line.instructions done).length (.label y) ins.c.toNat := by
  have h0 := prepare_expanding hp hs₀
  have hS : Symbols.Expanding S s [] := by
    rw [← List.append_nil p.program] at h0
    exact h0.expandAll hexp
  obtain ⟨-, -, -, hres⟩ := layOut_spec hS hlay
  rw [hprogram] at h0 hexp
  obtain ⟨done, s₁, later', hdone, hafter, rfl⟩ := Symbols.expandAll_append_eq_ok.1 hexp
  obtain ⟨lines, s₂, later, hline, -, rfl⟩ := Symbols.expandAll_cons_eq_ok.1 hafter
  have hcall : Symbols.Expanding done s₁ (line :: after) := h0.expandAll hdone
  refine ⟨done, s₁, hdone, fun i a a' y hget => ?_⟩
  obtain ⟨m₁, hm₁, hlines⟩ := Symbols.expandLine_call hl hline
  -- the record at the call differs in counters only
  obtain ⟨m', hm', e⟩ := (Symbols.expandAll_keeps hdone).1.exists_of_getElem? hm₁
  obtain rfl : m = m' := Option.some.inj (hm.symm.trans hm')
  have hbody := Macro.body_eq_of_uncounted e
  have hlocals := Macro.locals_eq_of_uncounted e
  set r := Scope.program.freshNames s₁.labels name m₁
  have hpiece : (Line.instructions lines)[i]? = some ([a, a', .label y].map (Operand.substitute args r)) := by
    rw [hlines, instructions_instantiate, ← hbody, List.getElem?_map, hget, Option.map_some]
  rw [← List.append_assoc] at hres ⊢
  obtain ⟨ins, hins, hresolved⟩ := hres _ _ (Line.getElem?_instructions_middle hpiece)
  refine ⟨ins, hins, ?_⟩
  have hrelocated : m.Relocated args (done ++ lines ++ later) (Line.instructions done).length i
      [a, a', .label y] ins := by
    refine Macro.relocated_of_resolved hresolved (fun l hl => Scope.freshNames_of_notMem (hlocals ▸ hl))
      fun l hl => ?_
    rw [hlines, hbody]
    exact position?_fresh hcall (hcall.macros name m₁ hm₁) (hlocals ▸ hl)
  cases hrelocated with
  | target _ _ hc => exact hc

/-- **What a label that is written in a definition stands for**, in every expansion, when it has the name of a
label of the program.  It is the label of the program if none of the definitions around declares one of this name;
and else that of the innermost which does, at the place of its own expansion.  In an imported file there are no
other such labels than those which the definition declares itself. -/
theorem run_resolves_written_labels (h : (run tree origin text).outcome = .ok product) :
    ∃ p s₀ S s, (prepare tree origin text).2 = .ok p ∧ p.blocks.foldlM Symbols.define p.symbols = .ok s₀ ∧
      s₀.expandAll p.program = .ok (S, s) ∧
      (∀ before line after b args, p.program = before ++ line :: after → b ∈ p.blocks →
        line.statement = .call b.name args →
        ∃ done s₁, s₀.expandAll before = .ok (done, s₁) ∧
          ∀ i a a' x chain, Written s₀.macros p.blocks b i [a, a', .label x] chain → x ∈ Line.declared p.program →
            ∃ ins, product.program[(Line.instructions done).length + i]? = some ins ∧
              ((∀ e ∈ chain, x ∉ Line.declared e.1.body) →
                ∃ n, Line.position? x S = some n ∧ ins.c.toNat = 6 * n) ∧
              ∀ c start, captor? x chain = some (c, start) →
                ∃ m n, s₀.macros[c.name]? = some m ∧ Line.position? x m.body = some n ∧
                  ins.c.toNat = 6 * ((Line.instructions done).length + start + n)) ∧
      ∀ t t' b, Context tree origin text .imported t → t.define b = .ok t' →
        ∀ line ∈ b.body, ∀ ops, line.statement = .instruction ops →
          ∀ x, .label x ∈ ops → x ∈ Line.declared p.program → x ∈ Line.declared b.body := by
  obtain ⟨S, s, hstream, hlay⟩ := run_eq_ok h
  obtain ⟨p, s₀, hp, hs₀, hexp⟩ := stream_eq_ok hstream
  obtain ⟨hclosed, -, hrange⟩ := prepare_closed hp
  have hwf : p.symbols.macros.All Macro.WellFormed := fun k m hm => (hclosed k m hm).toWellFormed
  refine ⟨p, s₀, S, s, hp, hs₀, hexp, ?_, ?_⟩
  · intro before line after b args hprogram hb hl
    have hall : ∀ b ∈ p.blocks, ∃ m, b.RecordedAs s₀.macros m :=
      fun b hb => Symbols.recorded_of_mem hwf hrange hs₀ hb
    obtain ⟨m, hm⟩ := hall b hb
    obtain ⟨done, s₁, hdone, hmeans⟩ := exists_means_of_call hp hs₀ hexp hlay hprogram hl hm.get
    refine ⟨done, s₁, hdone, fun i a a' x chain hwritten hx => ?_⟩
    obtain ⟨a₁, a₁', y, hget, hcarries⟩ := hwritten.carries hall (not_reserved_of_prepare hp hx) hm
    obtain ⟨ins, hins, hc⟩ := hmeans i a₁ a₁' y hget
    refine ⟨ins, hins, fun hnone => ?_, fun c start hsome => ?_⟩
    · have hcaptor : captor? x chain = none := List.find?_eq_none.2 fun e he => by simpa using hnone e he
      cases hcarries with
      | free _ hfree => exact hc.of_notMem hfree
      | bound hchain _ _ _ _ => cases hcaptor.symm.trans hchain
    · cases hcarries with
      | free hchain _ => cases hchain.symm.trans hsome
      | bound hchain hget' hn hy hpos =>
        cases hchain.symm.trans hsome
        refine ⟨_, _, hget', hn, ?_⟩
        rw [hc.of_mem hy hpos, Nat.add_assoc]
  · intro t t' b hcontext hdefine line hline ops hl x hx hdeclared
    have hlabels := hcontext.labels_imported
    rcases Symbols.label_of_define hcontext.proper.wellFormed hdefine hline hl hx with h | h | h
    · exact h
    · exact absurd h (not_reserved_of_prepare hp hdeclared)
    · simp [hlabels] at h

/-! ## A label that is captured

The macro `inner` refers to a label of the program.  It is called by the program and by the macro `outer`, which
declares a label of this name. -/

def captures : String :=
  "%macro inner 0\n0, 0, end\n%endmacro\n%macro outer 0\ninner\nend:\n1, 1\n%endmacro\n" ++
    "start:\ninner\nouter\nend:\n2, 2\n"

def capturesProgram : Program := [⟨0, 0, 18⟩, ⟨0, 0, 12⟩, ⟨1, 1, 18⟩, ⟨2, 2, 24⟩]

/-- The passes of this source: its definitions and program, the instructions before the two calls, the stream, and
what is emitted. -/
theorem run_captures :
    ∃ product p s₀ S s, (run {} {} captures).outcome = .ok product ∧ (prepare {} {} captures).2 = .ok p ∧
      p.blocks.foldlM Symbols.define p.symbols = .ok s₀ ∧ s₀.expandAll p.program = .ok (S, s) ∧
      p.blocks.map (fun b => (b.name, b.body.map Line.statement)) =
        [("inner", [.instruction [.number 0, .number 0, .label "end"]]),
          ("outer", [.call "inner" [], .label "end", .instruction [.number 1, .number 1]])] ∧
      p.program.map Line.statement = List.replicate 8 .blank ++
        [.label "start", .call "inner" [], .call "outer" [], .label "end", .instruction [.number 2, .number 2]] ∧
      (s₀.expandAll (p.program.take 9)).toOption.map (fun r => (Line.instructions r.1).length) = some 0 ∧
      (s₀.expandAll (p.program.take 10)).toOption.map (fun r => (Line.instructions r.1).length) = some 1 ∧
      Line.position? "end" S = some 3 ∧ product.program = capturesProgram := by
  refine exists_passes ?_
  rw [prepare_of_load (Import.load_eq _ _ _ _ _)]
  decide +kernel

/-- A call by the program, behind `n` lines. -/
theorem exists_call_of_statements {program : List Line} {statements : List Statement}
    (h : program.map Line.statement = statements) {n : Nat} {name : String} {args : List Operand}
    (hn : statements[n]? = some (.call name args)) :
    ∃ line, program = program.take n ++ line :: program.drop (n + 1) ∧ line.statement = .call name args := by
  rw [← h, List.getElem?_map] at hn
  exact Line.exists_split hn

/-- The one instruction of a first definition, by itself and in a second that calls it first. -/
theorem written_of_statements {blocks : List Block} (t : MacroTable) {name name' : String} {ops : List Operand}
    {rest rest' : List Statement}
    (h : blocks.map (fun b => (b.name, b.body.map Line.statement)) =
      [(name, .instruction ops :: rest), (name', .call name [] :: rest')]) :
    ∃ inner ∈ blocks, ∃ outer ∈ blocks, inner.name = name ∧
      inner.body.map Line.statement = .instruction ops :: rest ∧ outer.name = name' ∧
      outer.body.map Line.statement = .call name [] :: rest' ∧
      Written t blocks inner 0 ops [(inner, 0)] ∧ Written t blocks outer 0 ops [(inner, 0), (outer, 0)] := by
  obtain ⟨inner, others, hinner, hfields, hothers⟩ := List.map_eq_cons_iff.1 h
  obtain ⟨outer, others', houter, hfields', -⟩ := List.map_eq_cons_iff.1 hothers
  obtain ⟨rfl, hbody⟩ := Prod.mk.inj hfields
  obtain ⟨hname', hbody'⟩ := Prod.mk.inj hfields'
  have hmem : inner ∈ blocks := by simp [hinner]
  have hown : Written t blocks inner 0 ops [(inner, 0)] := by
    obtain ⟨line, after, hline, hl, -⟩ := List.map_eq_cons_iff.1 hbody
    have hsplit : inner.body = [] ++ line :: after := hline
    exact .own hsplit hl
  have hinlined : Written t blocks outer 0 ops [(inner, 0), (outer, 0)] := by
    obtain ⟨line, after, hline, hl, -⟩ := List.map_eq_cons_iff.1 hbody'
    have hsplit : outer.body = [] ++ line :: after := hline
    exact .inlined hmem hsplit hl hown
  exact ⟨inner, hmem, outer, by simp [hinner, houter], rfl, hbody, hname', hbody', hown, hinlined⟩

/-- The call of `inner` reaches the label of the program, the copy of `inner` in `outer` that of `outer`. -/
theorem run_resolves_written_labels_captures :
    ∃ (product : Product) (p : Prepared) (s₀ s : Symbols) (S : List Line),
      (run {} {} captures).outcome = .ok product ∧
      (prepare {} {} captures).2 = .ok p ∧ s₀.expandAll p.program = .ok (S, s) ∧
      (∃ ins n, product.program[0]? = some ins ∧ Line.position? "end" S = some n ∧ ins.c.toNat = 6 * n) ∧
      ∃ ins m n, product.program[1]? = some ins ∧ s₀.macros["outer"]? = some m ∧
        Line.position? "end" m.body = some n ∧ ins.c.toNat = 6 * (1 + 0 + n) := by
  obtain ⟨product, p, s₀, S, s, h, hp, hs₀, hexp, hblocks, hstatements, hcount, hcount', -, -⟩ :=
    run_captures
  obtain ⟨p', s₀', S', s', hp', hs₀', hexp', hcalls, -⟩ := run_resolves_written_labels h
  -- the passes of the theorem are these
  cases hp.symm.trans hp'
  cases hs₀.symm.trans hs₀'
  cases hexp.symm.trans hexp'
  have hend : "end" ∈ Line.declared p.program := Line.mem_declared_iff.2 (by simp [hstatements])
  obtain ⟨inner, hinner, outer, houter, hname, hbody, hname', hbody', hown, hinlined⟩ :=
    written_of_statements s₀.macros hblocks
  have hfree : "end" ∉ Line.declared inner.body := by simp [Line.mem_declared_iff, hbody]
  have hcaptor : "end" ∈ Line.declared outer.body := by simp [Line.mem_declared_iff, hbody']
  refine ⟨product, p, s₀, s, S, h, hp, hexp, ?_, ?_⟩
  · obtain ⟨line, hprogram, hl⟩ := exists_call_of_statements hstatements (n := 9) rfl
    obtain ⟨done, s₁, hdone, hlabels⟩ := hcalls _ line _ inner [] hprogram hinner (hname ▸ hl)
    obtain ⟨ins, hins, hreaches, -⟩ := hlabels _ _ _ _ _ hown hend
    rw [hdone] at hcount
    rw [show (Line.instructions done).length = 0 from Option.some.inj hcount] at hins
    obtain ⟨n, hn, hc⟩ := hreaches (by simpa using hfree)
    exact ⟨ins, n, hins, hn, hc⟩
  · obtain ⟨line, hprogram, hl⟩ := exists_call_of_statements hstatements (n := 10) rfl
    obtain ⟨done, s₁, hdone, hlabels⟩ := hcalls _ line _ outer [] hprogram houter (hname' ▸ hl)
    obtain ⟨ins, hins, -, hcaptured⟩ := hlabels _ _ _ _ _ hinlined hend
    rw [hdone] at hcount'
    rw [show (Line.instructions done).length = 1 from Option.some.inj hcount'] at hins hcaptured
    obtain ⟨m, n, hm, hn, hc⟩ := hcaptured outer 0 (by simp [captor?, hfree, hcaptor])
    exact ⟨ins, m, n, hins, hname' ▸ hm, hn, hc⟩

/-- **A label of the program is captured**: it is written in `inner`, which does not declare it, and the copy of
`inner` in `outer` does not reach the label of the program. -/
theorem inlined_label_misses_program :
    ∃ (product : Product) (p : Prepared) (s₀ s s₁ : Symbols) (S before after done : List Line) (line : Line)
      (inner outer : Block) (ins : Instruction), (run {} {} captures).outcome = .ok product ∧
      (prepare {} {} captures).2 = .ok p ∧ p.blocks.foldlM Symbols.define p.symbols = .ok s₀ ∧
      s₀.expandAll p.program = .ok (S, s) ∧ inner ∈ p.blocks ∧ outer ∈ p.blocks ∧
      p.program = before ++ line :: after ∧ line.statement = .call outer.name [] ∧
      s₀.expandAll before = .ok (done, s₁) ∧
      Written s₀.macros p.blocks outer 0 [.number 0, .number 0, .label "end"] [(inner, 0), (outer, 0)] ∧
      "end" ∉ Line.declared inner.body ∧ "end" ∈ Line.declared p.program ∧
      product.program[(Line.instructions done).length + 0]? = some ins ∧
      ∀ n, Line.position? "end" S = some n → ins.c.toNat ≠ 6 * n := by
  obtain ⟨product, p, s₀, S, s, h, hp, hs₀, hexp, hblocks, hstatements, -, hcount, hposition, hproduct⟩ :=
    run_captures
  obtain ⟨inner, hinner, outer, houter, -, hbody, hname, -, -, hinlined⟩ := written_of_statements s₀.macros hblocks
  obtain ⟨line, hprogram, hl⟩ := exists_call_of_statements hstatements (n := 10) rfl
  obtain ⟨done, s₁, -, hdone, -, -⟩ := Symbols.expandAll_append_eq_ok.1 (hprogram ▸ hexp)
  rw [hdone] at hcount
  refine ⟨product, p, s₀, s, s₁, S, p.program.take 10, p.program.drop 11, done, line, inner, outer,
    ⟨0, 0, 12⟩, h, hp, hs₀, hexp, hinner, houter, hprogram, hname ▸ hl, hdone,
    hinlined, by simp [Line.mem_declared_iff, hbody], Line.mem_declared_iff.2 (by simp [hstatements]), ?_, ?_⟩
  · rw [show (Line.instructions done).length = 1 from Option.some.inj hcount, hproduct]
    rfl
  · intro n hn
    cases hn.symm.trans hposition
    decide

end Assembly

end Abcout
