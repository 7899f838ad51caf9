import Abcout.Proofs.Inlining
import Abcout.Proofs.Templates

/-!
# Abcout.Proofs.Substitution — a body that is instantiated twice

A definition is stored with its calls expanded, so that the body of a macro that it calls is instantiated when the
definition is made, and once more when the defined macro is expanded.  The two come to one: the arguments of the
first instantiation get those of the second put in, and the renamings are made one after the other.

* `Renaming.andThen`: two renamings, one after the other.
* `Operand.substitute_substitute`: one operand.  All its places are filled at once, and what is filled in is not
  looked at again before the second time.
* `Macro.instantiate_twice`: a whole body.
* `Macro.Contains`: a body has another one in it (`Contains.trans`).
* `Symbols.exists_inlined_of_define`: the record of a definition has in it the body of each macro that the
  definition calls.
-/

namespace Abcout

/-! ## Renamings one after the other -/

namespace Renaming

/-- The renaming that gives a name its new name under `r₁`, and then that of the new name under `r₂`. -/
def andThen (r₁ r₂ : Renaming) : Renaming := r₂ ∪ r₁.map fun _ name => r₂.apply name

theorem apply_of_getElem? {r : Renaming} {x y : String} (h : r[x]? = some y) : r.apply x = y := by
  rw [apply, Std.ExtTreeMap.getD_eq_getD_getElem?, h, Option.getD_some]

theorem apply_of_getElem?_none {r : Renaming} {x : String} (h : r[x]? = none) : r.apply x = x := by
  rw [apply, Std.ExtTreeMap.getD_eq_getD_getElem?, h, Option.getD_none]

@[simp] theorem apply_andThen (r₁ r₂ : Renaming) (x : String) :
    (r₁.andThen r₂).apply x = r₂.apply (r₁.apply x) := by
  have hget : (r₁.andThen r₂)[x]? = (r₁[x]?.map r₂.apply).or r₂[x]? := by
    rw [andThen, Std.ExtTreeMap.getElem?_union, Std.ExtTreeMap.getElem?_map]
  cases h₁ : r₁[x]? with
  | some y =>
    rw [apply_of_getElem? h₁]
    exact apply_of_getElem? (by rw [hget, h₁, Option.map_some, Option.some_or])
  | none =>
    -- the first renaming leaves the name as it is
    rw [apply_of_getElem?_none h₁]
    have hget' : (r₁.andThen r₂)[x]? = r₂[x]? := by rw [hget, h₁, Option.map_none, Option.none_or]
    cases h₂ : r₂[x]? with
    | some z => rw [apply_of_getElem? h₂, apply_of_getElem? (hget'.trans h₂)]
    | none => rw [apply_of_getElem?_none h₂, apply_of_getElem?_none (hget'.trans h₂)]

end Renaming

/-! ## Instantiating twice -/

section Twice

variable {args later : List Operand} {r₁ r₂ : Renaming}

theorem Operand.substitute_substitute {op : Operand} (hop : ∀ i, op = .param i → i < args.length) :
    (op.substitute args r₁).substitute later r₂ =
      op.substitute (args.map (Operand.substitute later r₂)) (r₁.andThen r₂) := by
  cases op with
  | number n => rfl
  | label x => exact congrArg Operand.label (Renaming.apply_andThen r₁ r₂ x).symm
  | param i =>
    have hi := hop i rfl
    simp only [Operand.substitute, List.getElem?_map, List.getElem?_eq_getElem hi, Option.map_some,
      Option.getD_some]

theorem Statement.substitute_substitute {s : Statement}
    (hs : ∀ ops, s = .instruction ops → ∀ i, .param i ∈ ops → i < args.length) :
    (s.substitute args r₁).substitute later r₂ =
      s.substitute (args.map (Operand.substitute later r₂)) (r₁.andThen r₂) := by
  cases s with
  | label x => exact congrArg Statement.label (Renaming.apply_andThen r₁ r₂ x).symm
  | instruction ops =>
    simp only [Statement.substitute, List.map_map]
    refine congrArg Statement.instruction (List.map_congr_left fun op hop => ?_)
    exact Operand.substitute_substitute fun i hi => hs ops rfl i (hi ▸ hop)
  | _ => rfl

/-- A body with another body in it that was instantiated there, with an argument for each parameter. -/
theorem Macro.instantiate_inlined {m c : Macro} {pre post : List Line} {line : Line}
    (hbody : m.body = pre ++ c.instantiate args r₁ line ++ post)
    (hcover : ∀ ops ∈ Line.instructions c.body, ∀ i, .param i ∈ ops → i < args.length) (site : Line) :
    m.instantiate later r₂ site =
      pre.map (fun l => site.expanded (l.statement.substitute later r₂)) ++
        c.instantiate (args.map (Operand.substitute later r₂)) (r₁.andThen r₂) site ++
        post.map fun l => site.expanded (l.statement.substitute later r₂) := by
  rw [Macro.instantiate, hbody, List.map_append, List.map_append, Macro.instantiate, List.map_map]
  congr 2
  refine List.map_congr_left fun l hl => congrArg site.expanded ?_
  exact Statement.substitute_substitute fun ops hops => hcover ops (Line.mem_instructions hl hops)

/-- A parameter is replaced by its argument as it is given, whatever the argument is. -/
theorem Macro.argument_of_instantiate {m : Macro} {site : Line} {n j i : Nat} {ops : List Operand}
    (hline : m.body[n]?.map Line.statement = some (.instruction ops)) (hop : ops[j]? = some (.param i))
    (hi : i < args.length) : ∃ ops', (m.instantiate args r₁ site)[n]?.map Line.statement =
      some (.instruction ops') ∧ ops'[j]? = args[i]? := by
  obtain ⟨l, hl, hops⟩ := Option.map_eq_some_iff.1 hline
  refine ⟨ops.map (Operand.substitute args r₁), ?_, ?_⟩
  · rw [Macro.instantiate, List.getElem?_map, hl]
    simp only [Option.map_some, Line.expanded, hops, Statement.substitute]
  · rw [List.getElem?_map, hop]
    simp only [Option.map_some, Operand.substitute, List.getElem?_eq_getElem hi, Option.getD_some]

end Twice

/-- **Inlining commutes with substitution.**  Let the body of `m` be instantiated, with an argument for each of its
parameters, and be the body of `m'`.  Line by line, instantiating `m'` is instantiating `m` with one renaming after
the other, and with arguments in which parameters are replaced, as far as there are new arguments, and labels are
renamed.  Within one instantiation no argument is looked at: it stands as it is given at the place of its
parameter. -/
theorem Macro.instantiate_twice (m m' : Macro) (args later : List Operand) (r₁ r₂ : Renaming) (site₁ site₂ : Line)
    (hbody : m'.body = m.instantiate args r₁ site₁)
    (hcover : ∀ ops ∈ Line.instructions m.body, ∀ i, .param i ∈ ops → i < args.length) :
    m'.instantiate later r₂ site₂ =
        m.instantiate (args.map (Operand.substitute later r₂)) (r₁.andThen r₂) site₂ ∧
      (∀ x, (r₁.andThen r₂).apply x = r₂.apply (r₁.apply x)) ∧
      ∀ (n j i : Nat) (ops : List Operand), m.body[n]?.map Line.statement = some (.instruction ops) →
        ops[j]? = some (.param i) → ∃ ops', m'.body[n]?.map Line.statement = some (.instruction ops') ∧
          ops'[j]? = args[i]? := by
  refine ⟨?_, Renaming.apply_andThen r₁ r₂, ?_⟩
  · have hinlined : m'.body = [] ++ m.instantiate args r₁ site₁ ++ [] := by
      rw [hbody, List.nil_append, List.append_nil]
    rw [Macro.instantiate_inlined hinlined hcover]
    exact List.append_nil _
  · intro n j i ops hline hop
    obtain ⟨l, hl, hops⟩ := Option.map_eq_some_iff.1 hline
    rw [hbody]
    refine Macro.argument_of_instantiate hline hop ?_
    exact hcover ops (Line.mem_instructions (List.mem_of_getElem? hl) hops) i (List.mem_of_getElem? hop)

/-- A body with two parameters and a label of its own. -/
def branching : Macro where
  params := 2
  body := [⟨"l:", 2, "f", .label "l"⟩, ⟨"%0, 0, %1", 3, "f", .instruction [.param 0, .number 0, .param 1]⟩,
    ⟨"%0, 0, l", 4, "f", .instruction [.param 0, .number 0, .label "l"]⟩]
  dependencies := ∅
  locals := Std.ExtTreeSet.ofList ["l"]
  calls := 0
  topLevelCalls := 0

/-- It is instantiated with a parameter in place of itself, and with a label of the name of its own label. -/
def branchingInlined : Macro := { branching with
  body := branching.instantiate [.param 0, .label "l"] (Std.ExtTreeMap.ofList [("l", "m")]) ⟨"", 7, "g", .blank⟩ }

theorem Macro.instantiate_twice_branching :
    (branchingInlined.instantiate [.number 5] (Std.ExtTreeMap.ofList [("m", "n"), ("l", "k")])
      ⟨"", 9, "g", .blank⟩).map
        Line.statement =
      [.label "n", .instruction [.number 5, .number 0, .label "k"],
        .instruction [.number 5, .number 0, .label "n"]] ∧
    ∃ ops, branchingInlined.body[1]?.map Line.statement = some (.instruction ops) ∧
      ops[2]? = some (.label "l") := by
  have hcover : ∀ ops ∈ Line.instructions branching.body, ∀ i, .param i ∈ ops →
      i < [Operand.param 0, .label "l"].length := by
    simp [branching, Line.instructions]
  obtain ⟨htwice, -, hargument⟩ := Macro.instantiate_twice branching branchingInlined [.param 0, .label "l"]
    [.number 5] (Std.ExtTreeMap.ofList [("l", "m")]) (Std.ExtTreeMap.ofList [("m", "n"), ("l", "k")]) _
    ⟨"", 9, "g", .blank⟩ rfl hcover
  obtain ⟨ops, hops, harg⟩ := hargument 1 2 1 [.param 0, .number 0, .param 1] rfl rfl
  refine ⟨?_, ops, hops, harg⟩
  rw [htwice]
  decide +kernel

/-! ## Calls in a definition -/

/-- The body of a record has that of another one in it, instantiated with an argument for each parameter. -/
def Macro.Contains (m c : Macro) : Prop :=
  ∃ (pre post : List Line) (args : List Operand) (r : Renaming) (line : Line),
    m.body = pre ++ c.instantiate args r line ++ post ∧
      ∀ ops ∈ Line.instructions c.body, ∀ i, .param i ∈ ops → i < args.length

theorem Macro.Contains.trans {m c d : Macro} (h : m.Contains c) (h' : c.Contains d) : m.Contains d := by
  obtain ⟨pre, post, args, r, line, hbody, -⟩ := h
  obtain ⟨pre', post', args', r', line', hbody', hcover⟩ := h'
  have hinlined : c.instantiate args r line = _ := Macro.instantiate_inlined hbody' hcover line
  refine ⟨pre ++ pre'.map fun l => line.expanded (l.statement.substitute args r),
    (post'.map fun l => line.expanded (l.statement.substitute args r)) ++ post,
    args'.map (Operand.substitute args r), r'.andThen r, line, ?_, ?_⟩
  · rw [hbody, hinlined]
    simp only [List.append_assoc]
  · intro ops hops i hi
    rw [List.length_map]
    exact hcover ops hops i hi

namespace Symbols

variable {s s' : Symbols} {b : Block} {free : String → String → Prop}

/-- Where a definition has a call, its record has the body of the macro that is called. -/
theorem exists_inlined_of_define (hs : s.macros.Proper free) (h : s.define b = .ok s') {before after : List Line}
    {line : Line} {name : String} {args : List Operand} (hbody : b.body = before ++ line :: after)
    (hl : line.statement = .call name args) : ∃ (m c : Macro) (pre post : List Line) (r : Renaming),
      s'.macros[b.name]? = some m ∧ s.macros[name]? = some c ∧ m.body = pre ++ c.instantiate args r line ++ post ∧
      ∀ ops ∈ Line.instructions c.body, ∀ i, .param i ∈ ops → i < args.length := by
  obtain ⟨params, locals, d, -, hlocals, hd, rfl⟩ := define_eq_ok h
  rw [hbody] at hd
  obtain ⟨d₁, d₂, hd₁, hstep, hrest⟩ := exists_of_foldlM_append_cons hd
  obtain ⟨post, hpost⟩ := Block.Draft.body_foldlM hrest
  obtain ⟨piece, hpiece, -, hcall, -⟩ := Block.Draft.body_step hstep
  obtain ⟨c₁, hc₁, rfl⟩ := hcall name args hl
  -- the record that is called is there from the start, up to its counters
  obtain ⟨c, hc, hsame⟩ := (Block.Draft.sameCode_foldlM hd₁).1.exists_of_getElem? hc₁
  have hlength : args.length = c.params := by
    rcases Block.Draft.step_eq_ok_iff.1 hstep with ⟨hl', -⟩ | ⟨_, hl', -⟩ | ⟨_, hl', -⟩ |
      ⟨_, _, _, _, hl', hcheck, -⟩
    all_goals
      rw [hl] at hl'
      cases hl'
    obtain ⟨-, -, c₂, hc₂, hlength⟩ := Scope.checkCall_eq_ok_iff.1 hcheck
    rw [hc₁] at hc₂
    cases hc₂
    rw [hlength, Macro.params_eq_of_uncounted hsame]
  refine ⟨⟨params, d.body.toList, d.dependencies, d.locals, 0, 0⟩, c, d₁.body.toList, post,
    (Scope.definition params d₁.locals).freshNames d₁.symbols.labels name c₁, ?_, hc, ?_, ?_⟩
  · rw [getElem?_insert_name, if_pos rfl]
  · rw [← hpost, hpiece, Macro.instantiate, Macro.instantiate, Macro.body_eq_of_uncounted hsame]
  · intro ops hops i hi
    rw [hlength]
    exact ((hs name c hc).template ops hops).lt_of_mem hi

end Symbols

end Abcout
