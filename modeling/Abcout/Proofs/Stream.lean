import Abcout.Macro.Expansion
import Abcout.Proofs.Reading
import Abcout.Proofs.Renaming

/-!
# Abcout.Proofs.Stream — positions in a list of labels and instructions

`Line.instructions` are the instructions among lines, `Line.position? name` the number of instructions before the
declaration of a label.  Both are told of lines alone, without tables or addresses.

A body that is instantiated keeps its instructions one by one (`instructions_instantiate`), and its labels are
renamed one by one (`declared_instantiate`); as the renaming does not merge labels, each stays at its position
(`position?_instantiate`).
-/

namespace Abcout

namespace Line

/-- A label declaration or an instruction. -/
def IsCode (l : Line) : Prop := (∃ name, l.statement = .label name) ∨ ∃ ops, l.statement = .instruction ops

/-- The operands of the instructions among lines, in order. -/
def instructions (lines : List Line) : List (List Operand) :=
  lines.filterMap fun l => match l.statement with
    | .instruction ops => some ops
    | _ => none

/-- The number of instructions before the first declaration of a label. -/
def position? (name : String) : List Line → Option Nat
  | [] => none
  | l :: rest => match l.statement with
    | .label label => if label = name then some 0 else position? name rest
    | .instruction _ => (position? name rest).map (· + 1)
    | _ => position? name rest

@[simp] theorem instructions_nil : instructions [] = [] := rfl

@[simp] theorem declared_nil : declared [] = [] := rfl

theorem instructions_append (xs ys : List Line) : instructions (xs ++ ys) = instructions xs ++ instructions ys :=
  List.filterMap_append

theorem declared_append (xs ys : List Line) : declared (xs ++ ys) = declared xs ++ declared ys :=
  List.filterMap_append

theorem mem_declared_iff {name : String} {lines : List Line} :
    name ∈ declared lines ↔ .label name ∈ lines.map statement := by
  unfold declared
  rw [List.mem_filterMap, List.mem_map]
  refine exists_congr fun l => and_congr_right fun _ => ?_
  cases l.statement <;> simp

theorem exists_of_mem_instructions {lines : List Line} {ops : List Operand} (h : ops ∈ instructions lines) :
    ∃ l ∈ lines, l.statement = .instruction ops := by
  obtain ⟨l, hl, hops⟩ := List.mem_filterMap.1 h
  split at hops
  · rename_i ops' hops'
    cases hops
    exact ⟨l, hl, hops'⟩
  · cases hops

theorem mem_instructions {lines : List Line} {l : Line} {ops : List Operand} (hl : l ∈ lines)
    (hops : l.statement = .instruction ops) : ops ∈ instructions lines :=
  List.mem_filterMap.2 ⟨l, hl, by rw [hops]⟩

/-- Lines, split at one that is known by its index. -/
theorem exists_split {lines : List Line} {n : Nat} {s : Statement} (h : lines[n]?.map statement = some s) :
    ∃ line, lines = lines.take n ++ line :: lines.drop (n + 1) ∧ line.statement = s := by
  obtain ⟨line, hget, hl⟩ := Option.map_eq_some_iff.1 h
  obtain ⟨hlt, rfl⟩ := List.getElem?_eq_some_iff.1 hget
  exact ⟨_, by rw [List.getElem_cons_drop, List.take_append_drop], hl⟩

section Cons

variable {l : Line} (rest : List Line)

theorem instructions_cons_label {name : String} (h : l.statement = .label name) :
    instructions (l :: rest) = instructions rest := by
  simp [instructions, h]

theorem declared_cons_label {name : String} (h : l.statement = .label name) :
    declared (l :: rest) = name :: declared rest := by
  simp [declared, h]

theorem instructions_cons_instruction {ops : List Operand} (h : l.statement = .instruction ops) :
    instructions (l :: rest) = ops :: instructions rest := by
  simp [instructions, h]

theorem declared_cons_instruction {ops : List Operand} (h : l.statement = .instruction ops) :
    declared (l :: rest) = declared rest := by
  simp [declared, h]

theorem declared_cons_of_ne (h : ∀ name, l.statement ≠ .label name) : declared (l :: rest) = declared rest := by
  unfold declared
  rw [List.filterMap_cons]
  split
  · rfl
  · rename_i hsome
    split at hsome
    · rename_i name hname
      exact absurd hname (h name)
    · cases hsome

theorem instructions_cons_of_ne (h : ∀ ops, l.statement ≠ .instruction ops) :
    instructions (l :: rest) = instructions rest := by
  unfold instructions
  rw [List.filterMap_cons]
  split
  · rfl
  · rename_i hsome
    split at hsome
    · rename_i ops hops
      exact absurd hops (h ops)
    · cases hsome

end Cons

/-! ## Positions -/

theorem position?_eq_none_iff {name : String} {lines : List Line} :
    position? name lines = none ↔ name ∉ declared lines := by
  induction lines with
  | nil => simp [position?]
  | cons l rest ih =>
    unfold position?
    split
    · rename_i label hl
      rw [declared_cons_label rest hl, List.mem_cons, not_or]
      by_cases hn : label = name
      · simp [hn]
      · rw [if_neg hn, ih]
        exact ⟨fun h => ⟨fun e => hn e.symm, h⟩, And.right⟩
    · rename_i ops hl
      rw [declared_cons_instruction rest hl, Option.map_eq_none_iff, ih]
    · rename_i hlabel _
      rw [declared_cons_of_ne rest hlabel, ih]

theorem exists_position? {name : String} {lines : List Line} (h : name ∈ declared lines) :
    ∃ n, position? name lines = some n := by
  cases hp : position? name lines with
  | none => exact absurd h (position?_eq_none_iff.1 hp)
  | some n => exact ⟨n, rfl⟩

theorem position?_le {name : String} {lines : List Line} {n : Nat} (h : position? name lines = some n) :
    n ≤ (instructions lines).length := by
  induction lines generalizing n with
  | nil => cases h
  | cons l rest ih =>
    unfold position? at h
    split at h
    · rename_i label hl
      rw [instructions_cons_label rest hl]
      split_ifs at h
      · cases h
        exact Nat.zero_le _
      · exact ih h
    · rename_i ops hl
      obtain ⟨n', hn', rfl⟩ := Option.map_eq_some_iff.1 h
      rw [instructions_cons_instruction rest hl, List.length_cons]
      exact Nat.succ_le_succ (ih hn')
    · exact Nat.le_trans (ih h) (List.Sublist.length_le ((List.sublist_cons_self l rest).filterMap _))

theorem position?_append_left {name : String} {xs : List Line} {n : Nat} (h : position? name xs = some n)
    (ys : List Line) : position? name (xs ++ ys) = some n := by
  induction xs generalizing n with
  | nil => cases h
  | cons l rest ih =>
    unfold position? at h
    rw [List.cons_append, position?]
    split at h
    · rename_i label hl
      split_ifs at h ⊢
      · exact h
      · exact ih h
    · obtain ⟨n', hn', rfl⟩ := Option.map_eq_some_iff.1 h
      rw [ih hn', Option.map_some]
    · exact ih h

theorem position?_append_right {name : String} {xs : List Line} (h : name ∉ declared xs) (ys : List Line) :
    position? name (xs ++ ys) = (position? name ys).map ((instructions xs).length + ·) := by
  induction xs with
  | nil => simp
  | cons l rest ih =>
    rw [List.cons_append, position?]
    split
    · rename_i label hl
      rw [declared_cons_label rest hl, List.mem_cons, not_or] at h
      rw [if_neg (fun e => h.1 e.symm), ih h.2, instructions_cons_label rest hl]
    · rename_i ops hl
      rw [declared_cons_instruction rest hl] at h
      rw [ih h, instructions_cons_instruction rest hl, Option.map_map, List.length_cons]
      congr 1
      funext n
      simp only [Function.comp_apply]
      omega
    · rename_i hlabel hinstr
      rw [declared_cons_of_ne rest hlabel] at h
      rw [ih h, instructions_cons_of_ne rest hinstr]

end Line

/-! ## Instantiated bodies -/

section Instantiate

variable (m : Macro) (args : List Operand) (r : Renaming) (site : Line)

theorem declared_instantiate :
    Line.declared (m.instantiate args r site) = (Line.declared m.body).map r.apply := by
  unfold Line.declared Macro.instantiate
  rw [List.filterMap_map, List.map_filterMap]
  congr 1
  funext l
  cases hl : l.statement <;> simp [Line.expanded, Statement.substitute, hl]

theorem instructions_instantiate :
    Line.instructions (m.instantiate args r site) =
      (Line.instructions m.body).map (List.map (Operand.substitute args r)) := by
  unfold Line.instructions Macro.instantiate
  rw [List.filterMap_map, List.map_filterMap]
  congr 1
  funext l
  cases hl : l.statement <;> simp [Line.expanded, Statement.substitute, hl]

/-- A renaming that merges no label with `name` keeps the position of `name`. -/
theorem position?_instantiate {name : String}
    (inj : ∀ l ∈ Line.declared m.body, r.apply l = r.apply name → l = name) :
    Line.position? (r.apply name) (m.instantiate args r site) = Line.position? name m.body := by
  unfold Macro.instantiate
  generalize m.body = body at inj
  induction body with
  | nil => rfl
  | cons l rest ih =>
    rw [List.map_cons, Line.position?, Line.position?]
    cases hl : l.statement with
    | label label =>
      rw [Line.declared_cons_label rest hl] at inj
      have hrest := ih fun x hx => inj x (List.mem_cons_of_mem _ hx)
      simp only [Line.expanded, Statement.substitute]
      by_cases hn : label = name
      · rw [if_pos hn, if_pos (congrArg r.apply hn)]
      · rw [if_neg hn, if_neg (fun e => hn (inj label List.mem_cons_self e))]
        exact hrest
    | instruction ops =>
      rw [Line.declared_cons_instruction rest hl] at inj
      exact congrArg (Option.map (· + 1)) (ih inj)
    | _ =>
      rw [Line.declared_cons_of_ne rest (by simp [hl])] at inj
      exact ih inj

theorem isCode_instantiate (h : ∀ l ∈ m.body, l.IsCode) : ∀ l ∈ m.instantiate args r site, l.IsCode := by
  intro l hl
  obtain ⟨l', hl', rfl⟩ := List.mem_map.1 hl
  rcases h l' hl' with ⟨name, hname⟩ | ⟨ops, hops⟩
  · exact .inl ⟨r.apply name, by simp [Line.expanded, Statement.substitute, hname]⟩
  · exact .inr ⟨ops.map (Operand.substitute args r), by simp [Line.expanded, Statement.substitute, hops]⟩

theorem Operand.substitute_inRange {op : Operand} (hop : op.InRange) (hargs : ∀ arg ∈ args, arg.InRange) :
    (op.substitute args r).InRange := by
  cases op with
  | number n => exact hop
  | label name => trivial
  | param i =>
    show (args[i]?.getD (.param i)).InRange
    cases hi : args[i]? with
    | none => exact hop
    | some arg => exact hargs arg (List.mem_of_getElem? hi)

theorem inRange_instantiate (h : ∀ l ∈ m.body, l.InRange) (hcode : ∀ l ∈ m.body, l.IsCode)
    (hargs : ∀ arg ∈ args, arg.InRange) : ∀ l ∈ m.instantiate args r site, l.InRange := by
  intro l hl
  obtain ⟨l', hl', rfl⟩ := List.mem_map.1 hl
  intro op hop
  rcases hcode l' hl' with ⟨name, hname⟩ | ⟨ops, hops⟩
  · simp [Line.expanded, Statement.substitute, Statement.operands, hname] at hop
  · simp only [Line.expanded, Statement.substitute, Statement.operands, hops] at hop
    obtain ⟨op', hop', rfl⟩ := List.mem_map.1 hop
    exact Operand.substitute_inRange args r (h l' hl' op' (by rw [hops]; exact hop')) hargs

end Instantiate

end Abcout
