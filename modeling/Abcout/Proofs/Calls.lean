import Abcout.Proofs.Assembly

/-!
# Abcout.Proofs.Calls — a call emits a relocated copy of the body of its macro

Let `k` instructions stand before a call in the stream `S`.  `m.Means args S k op v` says what an operand of the
body stands for there: numbers for themselves, parameters for arguments, local labels for their position in the
body moved by `k`, other labels for their position in `S`.  `m.Relocated args S k i ops ins` says the same of the
`i`-th instruction of the body.

The names of an expansion are new, so none is declared before the call (`position?_fresh`); the rest is what
`run_resolves_by_position` says, read back through the substitution.
-/

namespace Abcout

/-- What an operand of a body stands for, in an expansion with `k` instructions before it in the stream `S`. -/
inductive Macro.Means (m : Macro) (args : List Operand) (S : List Line) (k : Nat) : Operand → Nat → Prop
  | number (n : UInt16) : Means m args S k (.number n) n.toNat
  | numberArgument {j : Nat} {n : UInt16} (h : args[j]? = some (.number n)) : Means m args S k (.param j) n.toNat
  | labelArgument {j n : Nat} {name : String} (h : args[j]? = some (.label name))
      (hn : Line.position? name S = some n) : Means m args S k (.param j) (6 * n)
  | localLabel {name : String} {n : Nat} (hl : name ∈ m.locals) (hn : Line.position? name m.body = some n) :
      Means m args S k (.label name) (6 * (k + n))
  | otherLabel {name : String} {n : Nat} (hl : name ∉ m.locals) (hn : Line.position? name S = some n) :
      Means m args S k (.label name) (6 * n)

/-- What the `i`-th instruction of a body becomes, in an expansion with `k` instructions before it. -/
inductive Macro.Relocated (m : Macro) (args : List Operand) (S : List Line) (k i : Nat) :
    List Operand → Instruction → Prop
  | next {a b : Operand} {ins : Instruction} (ha : m.Means args S k a ins.a.toNat)
      (hb : m.Means args S k b ins.b.toNat) (hc : ins.c.toNat = 6 * (k + i + 1)) :
      Relocated m args S k i [a, b] ins
  | target {a b c : Operand} {ins : Instruction} (ha : m.Means args S k a ins.a.toNat)
      (hb : m.Means args S k b ins.b.toNat) (hc : m.Means args S k c ins.c.toNat) :
      Relocated m args S k i [a, b, c] ins

namespace Macro

variable {m : Macro} {args : List Operand} {r : Renaming} {S : List Line} {k : Nat}

/-! ## Operands read back through a substitution -/

theorem means_of_number {op : Operand} {n : UInt16} (h : op.substitute args r = .number n) :
    m.Means args S k op n.toNat := by
  cases op with
  | number n' =>
    cases h
    exact .number n
  | label name => cases h
  | param j =>
    change args[j]?.getD (.param j) = .number n at h
    cases hj : args[j]? with
    | none =>
      rw [hj] at h
      cases h
    | some arg =>
      rw [hj] at h
      cases h
      exact .numberArgument hj

theorem means_of_label {op : Operand} {name : String} {n : Nat} (h : op.substitute args r = .label name)
    (hn : Line.position? name S = some n) (hother : ∀ l, l ∉ m.locals → r.apply l = l)
    (hlocal : ∀ l ∈ m.locals, ∃ n', Line.position? l m.body = some n' ∧
      Line.position? (r.apply l) S = some (k + n')) :
    m.Means args S k op (6 * n) := by
  cases op with
  | number n' => cases h
  | label l =>
    cases h
    by_cases hl : l ∈ m.locals
    · obtain ⟨n', hbody, hpos⟩ := hlocal l hl
      rw [hpos] at hn
      cases hn
      exact .localLabel hl hbody
    · rw [hother l hl] at hn
      exact .otherLabel hl hn
  | param j =>
    change args[j]?.getD (.param j) = .label name at h
    cases hj : args[j]? with
    | none =>
      rw [hj] at h
      cases h
    | some arg =>
      rw [hj] at h
      cases h
      exact .labelArgument hj hn

/-- An instruction of a body is relocated if what it is substituted to is resolved by position. -/
theorem relocated_of_resolved {i : Nat} {ops : List Operand} {ins : Instruction}
    (h : Resolved S (k + i) (ops.map (Operand.substitute args r)) ins) (hother : ∀ l, l ∉ m.locals → r.apply l = l)
    (hlocal : ∀ l ∈ m.locals, ∃ n', Line.position? l m.body = some n' ∧
      Line.position? (r.apply l) S = some (k + n')) :
    m.Relocated args S k i ops ins := by
  generalize hsub : ops.map (Operand.substitute args r) = ops' at h
  cases h with
  | next a b c hc =>
    simp only [List.map_eq_cons_iff, List.map_eq_nil_iff] at hsub
    obtain ⟨x, -, rfl, hx, y, -, rfl, hy, rfl⟩ := hsub
    exact .next (means_of_number hx) (means_of_number hy) hc
  | address a b c =>
    simp only [List.map_eq_cons_iff, List.map_eq_nil_iff] at hsub
    obtain ⟨x, -, rfl, hx, y, -, rfl, hy, z, -, rfl, hz, rfl⟩ := hsub
    exact .target (means_of_number hx) (means_of_number hy) (means_of_number hz)
  | label a b c name n hn hc =>
    simp only [List.map_eq_cons_iff, List.map_eq_nil_iff] at hsub
    obtain ⟨x, -, rfl, hx, y, -, rfl, hy, z, -, rfl, hz, rfl⟩ := hsub
    refine .target (means_of_number hx) (means_of_number hy) ?_
    show m.Means args S k z c.toNat
    rw [hc]
    exact means_of_label hz hn hother hlocal

end Macro

/-! ## Positions of fresh names -/

/-- A label of an expansion stands at its position in the body, moved by the instructions before the call: its name
is new, so that nothing before the call declares it. -/
theorem position?_fresh {m : Macro} {done rest later : List Line} {s : Symbols} {name : String}
    {args : List Operand} {site : Line} (h : Symbols.Expanding done s (site :: rest)) (hm : m.WellFormed)
    {l : String} (hl : l ∈ m.locals) : ∃ n, Line.position? l m.body = some n ∧
      Line.position? ((Scope.program.freshNames s.labels name m).apply l)
        (done ++ m.instantiate args (Scope.program.freshNames s.labels name m) site ++ later) =
        some ((Line.instructions done).length + n) := by
  obtain ⟨n, hn⟩ := Line.exists_position? ((hm.mem_locals l).1 hl)
  refine ⟨n, hn, ?_⟩
  set r := Scope.program.freshNames s.labels name m
  have hfree : Scope.program.inUse s.labels (r.apply l) = false := Scope.inUse_freshNames hl
  have hnew : r.apply l ∉ Line.declared done := by
    intro hmem
    exact not_mem_of_contains hfree (h.mem_labels.2 (List.mem_append_left _ hmem))
  have hinst : Line.position? (r.apply l) (m.instantiate args r site) = Line.position? l m.body :=
    position?_instantiate m args r site fun x hx e => Scope.freshNames_inj ((hm.mem_locals x).2 hx) hl e
  rw [hn] at hinst
  rw [List.append_assoc, Line.position?_append_right hnew, Line.position?_append_left hinst, Option.map_some]

namespace Assembly

variable {tree : FileTree} {origin : Origin} {text : String} {product : Product}

/-- **Every call of the program emits a relocated copy of the body of its macro.**  The lines before the call are
expanded to `done`, so `(Line.instructions done).length` instructions stand before it; `m` is the record of the
macro at the call. -/
theorem run_relocates_calls (h : (run tree origin text).outcome = .ok product) :
    ∃ p s₀ S s, (prepare tree origin text).2 = .ok p ∧ p.blocks.foldlM Symbols.define p.symbols = .ok s₀ ∧
      s₀.expandAll p.program = .ok (S, s) ∧ product.program.length = (Line.instructions S).length ∧
      ∀ before line after name args, p.program = before ++ line :: after → line.statement = .call name args →
        ∃ done s₁ lines s₂ later m, s₀.expandAll before = .ok (done, s₁) ∧ s₁.expandLine line = .ok (lines, s₂) ∧
          S = done ++ lines ++ later ∧ s₁.macros[name]? = some m ∧
          (Line.instructions lines).length = (Line.instructions m.body).length ∧
          ∀ i ops, (Line.instructions m.body)[i]? = some ops →
            ∃ ins, product.program[(Line.instructions done).length + i]? = some ins ∧
              m.Relocated args S (Line.instructions done).length i ops ins := by
  obtain ⟨S, s, hstream, hlay⟩ := run_eq_ok h
  obtain ⟨p, s₀, hp, hs₀, hexp⟩ := stream_eq_ok hstream
  obtain ⟨-, -, hlen, hres⟩ := layOut_spec (stream_expanding hstream) hlay
  refine ⟨p, s₀, S, s, hp, hs₀, hexp, hlen, ?_⟩
  intro before line after name args hprog hl
  have h0 := prepare_expanding hp hs₀
  rw [hprog] at h0 hexp
  obtain ⟨done, s₁, later', hdone, hafter, rfl⟩ := Symbols.expandAll_append_eq_ok.1 hexp
  obtain ⟨lines, s₂, later, hline, hlater, rfl⟩ := Symbols.expandAll_cons_eq_ok.1 hafter
  have hcall : Symbols.Expanding done s₁ (line :: after) := h0.expandAll hdone
  obtain ⟨m, hm, hlines⟩ := Symbols.expandLine_call hl hline
  have hbody : Line.instructions lines = (Line.instructions m.body).map
      (List.map (Operand.substitute args (Scope.program.freshNames s₁.labels name m))) := by
    rw [hlines, instructions_instantiate]
  refine ⟨done, s₁, lines, s₂, later, m, hdone, hline, (List.append_assoc _ _ _).symm, hm, ?_, ?_⟩
  · rw [hbody, List.length_map]
  · intro i ops hops
    set r := Scope.program.freshNames s₁.labels name m
    have hget : (Line.instructions (done ++ (lines ++ later)))[(Line.instructions done).length + i]? =
        some (ops.map (Operand.substitute args r)) := by
      rw [Line.instructions_append, List.getElem?_append_right (Nat.le_add_right _ _), Nat.add_sub_cancel_left,
        Line.instructions_append, hbody, List.getElem?_append_left, List.getElem?_map, hops, Option.map_some]
      rw [List.length_map]
      exact (List.getElem?_eq_some_iff.1 hops).1
    obtain ⟨ins, hins, hr⟩ := hres _ _ hget
    refine ⟨ins, hins, Macro.relocated_of_resolved hr (fun l hl => Scope.freshNames_of_notMem hl) fun l hl => ?_⟩
    rw [← List.append_assoc, hlines]
    exact position?_fresh hcall (hcall.macros name m hm) hl

/-- The second call stands behind two labels and the first. -/
theorem prepare_twoCalls {p : Prepared} (h : (prepare {} {} twoCalls).2 = .ok p) :
    ∃ before line after, p.program = before ++ line :: after ∧
      line.statement = .call "skip" [.label "start"] := by
  have heval : (prepare {} {} twoCalls).2.toOption.map (fun q => q.program[9]?.map Line.statement) =
      some (some (.call "skip" [.label "start"])) := by
    rw [prepare_of_load (Import.load_eq _ _ _ _ _)]
    decide +kernel
  rw [h] at heval
  obtain ⟨line, hsplit, hl⟩ := Line.exists_split (Option.some.inj heval)
  exact ⟨_, line, _, hsplit, hl⟩

theorem run_relocates_calls_twoCalls :
    ∃ (product : Product) (p : Prepared) (s₀ s₁ s : Symbols) (S before after done : List Line) (line : Line)
      (m : Macro), (run {} {} twoCalls).outcome = .ok product ∧
      (prepare {} {} twoCalls).2 = .ok p ∧ s₀.expandAll p.program = .ok (S, s) ∧
      p.program = before ++ line :: after ∧ line.statement = .call "skip" [.label "start"] ∧
      s₀.expandAll before = .ok (done, s₁) ∧ s₁.macros["skip"]? = some m ∧
      ∀ i ops, (Line.instructions m.body)[i]? = some ops →
        ∃ ins, twoCallsProgram[(Line.instructions done).length + i]? = some ins ∧
          m.Relocated [.label "start"] S (Line.instructions done).length i ops ins := by
  obtain ⟨product, h, hprogram⟩ := run_twoCalls
  obtain ⟨p, s₀, S, s, hp, -, hexp, -, hcalls⟩ := run_relocates_calls h
  obtain ⟨before, line, after, hsplit, hl⟩ := prepare_twoCalls hp
  obtain ⟨done, s₁, -, -, -, m, hdone, -, -, hm, -, hins⟩ := hcalls before line after _ _ hsplit hl
  rw [hprogram] at hins
  exact ⟨product, p, s₀, s₁, s, S, before, after, done, line, m, h, hp, hexp, hsplit, hl, hdone, hm, hins⟩

end Assembly

end Abcout
