import Abcout.Macro.Renaming
import Abcout.Scope

/-!
# Abcout.Macro.Expansion — calls replaced by the bodies of macros

A call stands for the body of its macro, with arguments in place of parameters and fresh names in place of local
labels.  Calls of the program declare the fresh names as labels of the program; calls within a definition make
them labels of that definition.
-/

namespace Abcout

/-- An operand of a body with arguments and new names put in.  An argument itself is left as it is. -/
def Operand.substitute (args : List Operand) (r : Renaming) : Operand → Operand
  | .param i => args[i]?.getD (.param i)
  | .label name => .label (r.apply name)
  | .number n => .number n

/-- A statement of a body with arguments and new names put in. -/
def Statement.substitute (args : List Operand) (r : Renaming) : Statement → Statement
  | .label name => .label (r.apply name)
  | .instruction ops => .instruction (ops.map (Operand.substitute args r))
  | s => s

/-- The body of a macro with arguments and new names put in, at the place of a call. -/
def Macro.instantiate (m : Macro) (args : List Operand) (r : Renaming) (site : Line) : List Line :=
  m.body.map fun line => site.expanded (line.statement.substitute args r)

namespace Scope

/-- The number of the next call of a macro. -/
def nextCall (scope : Scope) (m : Macro) : Nat :=
  match scope with
  | program => m.topLevelCalls + 1
  | definition _ _ => m.calls + 1

/-- Fresh names for the next call of a macro: none is a label of the program, for a call there, or a local label,
for a call in a definition. -/
def freshNames (scope : Scope) (labels : LabelTable) (name : String) (m : Macro) : Renaming :=
  match scope with
  | program => Renaming.fresh labels.contains labels.size name m.locals (scope.nextCall m)
  | definition _ locals => Renaming.fresh locals.contains locals.size name m.locals (scope.nextCall m)

/-- Counts a call of a macro, and for a call of the program one expansion of each dependency too. -/
def countCall (scope : Scope) (macros : MacroTable) (name : String) (m : Macro) : MacroTable :=
  match scope with
  | program => m.dependencies.toList.foldl (·.modify · Macro.counted) (macros.modify name Macro.countedTopLevel)
  | definition _ _ => macros.modify name Macro.counted

/-- The scope with further local labels. -/
def withLocals (scope : Scope) (names : List String) : Scope :=
  match scope with
  | program => .program
  | definition params locals => .definition params (locals.insertMany names)

/-- The labels of the program after a call that declares the given names. -/
def declare (scope : Scope) (labels : LabelTable) (names : List String) : LabelTable :=
  match scope with
  | program => labels.declare names
  | definition _ _ => labels

/-- Whether a line, if it is an instruction, is a proper one. -/
def accepts (scope : Scope) (labels : LabelTable) (line : Line) : Bool :=
  match line.statement with
  | .instruction ops => (scope.checkInstruction labels ops).isOk
  | _ => true

end Scope

namespace Symbols

/-- The lines that a call stands for. -/
def expand (s : Symbols) (scope : Scope) (site : Line) (name : String) (args : List Operand) :
    Except Fault (List Line × Symbols) :=
  match s.macros[name]? with
  | none => .error (site.fault (.macroUndefined name))
  | some m =>
    let lines := m.instantiate args (scope.freshNames s.labels name m) site
    let names := Line.declared lines
    let labels := scope.declare s.labels names
    if lines.all ((scope.withLocals names).accepts labels) then
      .ok (lines, ⟨labels, scope.countCall s.macros name m⟩)
    else .error (site.fault .expansionInvalid)

/-- The lines that a line of the program stands for: labels and instructions only. -/
def expandLine (s : Symbols) (line : Line) : Except Fault (List Line × Symbols) :=
  match line.statement with
  | .blank => .ok ([], s)
  | .importing => .ok ([], s)
  | .label _ => .ok ([line], s)
  | .instruction ops => do
    (Scope.program.checkInstruction s.labels ops).mapError line.fault
    return ([line], s)
  | .call name args => do
    (Scope.program.checkCall s name args).mapError line.fault
    s.expand .program line name args
  | .opening _ _ => .error (line.fault .strayPercent)
  | .closing => .error (line.fault .strayPercent)
  | .directive => .error (line.fault .strayPercent)

/-- Expands one more line behind those expanded before. -/
def expandAfter (done : Array Line × Symbols) (line : Line) : Except Fault (Array Line × Symbols) := do
  let (lines, s) ← done.2.expandLine line
  return (done.1 ++ lines, s)

/-- The lines that a program stands for. -/
def expandAll (s : Symbols) (program : List Line) : Except Fault (List Line × Symbols) := do
  let (lines, s) ← program.foldlM expandAfter (#[], s)
  return (lines.toList, s)

end Symbols

end Abcout
