import Abcout.Symbols

/-!
# Abcout.Scope — which operands may stand where

An instruction has two or three operands.  The first two are numbers or parameters, the third may also be a known
label and, written as a number, is a multiple of an instruction's size.  Parameters stand in definitions only.
-/

namespace Abcout

/-- Where a line stands: in the program, or in a definition with parameters and labels of its own. -/
inductive Scope where
  | program
  | definition (params : Nat) (locals : NameSet)

namespace Scope

/-- Whether a label can be referred to. -/
def knows (scope : Scope) (labels : LabelTable) (name : String) : Bool :=
  labels.contains name || match scope with
    | program => false
    | definition _ locals => locals.contains name

/-- Refuses a parameter that the scope does not have. -/
def checkParam (scope : Scope) : Operand → Except Cause Unit
  | .param i => match scope with
    | program => .error .paramOutsideMacro
    | definition params _ => ensure (i < params) .paramOutOfRange
  | _ => .ok ()

/-- Refuses a label in an operand position that holds a value. -/
def checkValue (slot : Slot) : Operand → Except Cause Unit
  | .label _ => .error (.operandInvalid slot)
  | _ => .ok ()

/-- Refuses a number that is no address of an instruction, and a label that is not known. -/
def checkTarget (scope : Scope) (labels : LabelTable) : Operand → Except Cause Unit
  | .number n => ensure (n.toNat % 6 == 0) (.operandInvalid .c)
  | .label name => ensure (scope.knows labels name) (.labelUndefined name)
  | .param _ => .ok ()

/-- Refuses operands that make no instruction. -/
def checkInstruction (scope : Scope) (labels : LabelTable) (ops : List Operand) : Except Cause Unit := do
  ops.forM scope.checkParam
  match ops with
  | [a, b] =>
    checkValue .a a
    checkValue .b b
  | [a, b, c] =>
    checkValue .a a
    checkValue .b b
    scope.checkTarget labels c
  | _ => .error (.operandCount ops.length)

/-- Refuses an argument that the scope does not have. -/
def checkArgument (scope : Scope) (labels : LabelTable) (arg : Operand) : Except Cause Unit := do
  scope.checkParam arg
  match arg with
  | .label name => ensure (scope.knows labels name) (.labelUndefined name)
  | _ => .ok ()

/-- Refuses a call of no macro, or with the wrong number of arguments. -/
def checkCall (scope : Scope) (symbols : Symbols) (name : String) (args : List Operand) :
    Except Cause Unit := do
  ensure (name != mnemonic) (.operandCount args.length)
  args.forM (scope.checkArgument symbols.labels)
  match symbols.macros[name]? with
  | none => .error (.macroUndefined name)
  | some m => ensure (args.length == m.params) (.operandCount args.length)

end Scope

end Abcout
