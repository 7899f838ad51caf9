import Abcout.Macro.Block
import Abcout.Macro.Expansion

/-!
# Abcout.Macro.Definition — macros made from their definitions

A definition is checked line by line and stored with all its calls expanded, so that expanding a macro never needs
another one.
-/

namespace Abcout

namespace Block

/-- Whether a line calls the macro that is being defined. -/
def callsItself (b : Block) (line : Line) : Bool :=
  match line.statement with
  | .call name _ => name == b.name
  | _ => false

/-- Adds the label that a line declares to those of the lines before. -/
def addLocal (locals : NameSet) (line : Line) : Except Fault NameSet :=
  match line.statement with
  | .label name => do
    ensure (name != mnemonic) (line.fault .labelNameReserved)
    ensure (isIdentifier name.toList) (line.fault (.labelNameInvalid name))
    ensure (!locals.contains name) (line.fault (.labelInUse name))
    return locals.insert name
  | _ => .ok locals

/-- A definition that is read up to some line. -/
structure Draft where
  symbols : Symbols
  body : Array Line := #[]
  dependencies : NameSet := ∅
  locals : NameSet

/-- Reads one more line of a definition. -/
def Draft.step (b : Block) (params : Nat) (d : Draft) (line : Line) : Except Fault Draft :=
  let scope := Scope.definition params d.locals
  match line.statement with
  | .blank => .ok d
  | .label _ => .ok { d with body := d.body.push line }
  | .instruction ops => do
    (scope.checkInstruction d.symbols.labels ops).mapError line.fault
    return { d with body := d.body.push line }
  | .call name args => do
    (scope.checkCall d.symbols name args).mapError line.fault
    let (lines, symbols) ← d.symbols.expand scope line name args
    return {
      symbols
      body := d.body ++ lines
      dependencies := d.dependencies.insert name
      locals := d.locals.insertMany (Line.declared lines) }
  | .importing => .error (line.fault .strayAt)
  | .opening _ _ => .error (b.opening.fault .definitionNested)
  | .closing => .error (line.fault .strayPercent)
  | .directive => .error (line.fault .strayPercent)

/-- Refuses a name that a macro cannot have, or that another macro has. -/
def checkName (b : Block) (macros : MacroTable) : Except Fault Unit := do
  ensure (isIdentifier b.name.toList) (b.opening.fault (.macroNameInvalid b.name))
  ensure (b.name != mnemonic) (b.opening.fault .macroNameReserved)
  ensure (!macros.contains b.name) (b.opening.fault (.macroRedefined b.name))

/-- The number of parameters, if it is well written. -/
def paramCount (b : Block) : Except Fault Nat :=
  match b.params with
  | some n => .ok n
  | none => .error (b.opening.fault .paramCountInvalid)

/-- Refuses a definition that calls the macro it defines. -/
def checkCalls (b : Block) : Except Fault Unit :=
  match b.body.find? b.callsItself with
  | some line => .error (line.fault (.macroCallsItself b.name))
  | none => .ok ()

end Block

/-- Adds the macro that a definition defines. -/
def Symbols.define (s : Symbols) (b : Block) : Except Fault Symbols := do
  b.checkName s.macros
  let params ← b.paramCount
  b.checkCalls
  let locals ← b.body.foldlM Block.addLocal ∅
  let d ← b.body.foldlM (Block.Draft.step b params) { symbols := s, locals }
  let m : Macro := {
    params
    body := d.body.toList
    dependencies := d.dependencies
    locals := d.locals
    calls := 0
    topLevelCalls := 0 }
  return { d.symbols with macros := d.symbols.macros.insert b.name m }

end Abcout
