import Abcout.Symbols

/-!
# Abcout.Macro.Block — macro definitions as they stand in a file

`Block.check` says whether the first and last lines of definitions pair up, one definition after the other;
`Block.split` takes the definitions out of a file and leaves blank lines in their place.
-/

namespace Abcout

/-- A definition in a file, with the lines between its first and its last. -/
structure Block where
  opening : Line
  name : String
  params : Option Nat
  body : List Line
deriving DecidableEq, Repr

namespace Block

/-- What is known while first and last lines are paired. -/
structure Pairing where
  /-- The definitions that are open, innermost first. -/
  unclosed : List Line := []
  /-- The first lines seen. -/
  seen : NameSet := ∅
  /-- The outermost definition around the first one that stands in another. -/
  outer : Option Line := none

/-- Takes one line into account. -/
def Pairing.step (p : Pairing) (line : Line) : Except Fault Pairing :=
  match line.statement with
  | .opening _ _ =>
    if p.seen.contains line.text then .error (line.fault .openingRepeated)
    else .ok {
      unclosed := line :: p.unclosed
      seen := p.seen.insert line.text
      outer := p.outer <|> p.unclosed.getLast? }
  | .closing => match p.unclosed with
    | [] => .error (line.fault .closingUnmatched)
    | _ :: rest => .ok { p with unclosed := rest }
  | .directive => .error (line.fault .strayPercent)
  | _ => .ok p

/-- Refuses a file whose definitions are not closed one after the other. -/
def check (lines : List Line) : Except Fault Unit := do
  let p ← lines.foldlM Pairing.step {}
  match p.unclosed, p.outer with
  | line :: _, _ => .error (line.fault .openingUnmatched)
  | [], some line => .error (line.fault .definitionNested)
  | [], none => .ok ()

/-- What is known while definitions are taken out. -/
structure Splitting where
  blocks : Array Block := #[]
  program : Array Line := #[]
  /-- The definition that is open: its first line, name, parameters and lines so far. -/
  current : Option (Line × String × Option Nat × Array Line) := none

/-- Takes one line into account. -/
def Splitting.step (s : Splitting) (line : Line) : Splitting :=
  match line.statement, s.current with
  | .opening name params, none =>
    { s with program := s.program.push line.blanked, current := some (line, name, params, #[]) }
  | .closing, some (opening, name, params, body) =>
    { blocks := s.blocks.push ⟨opening, name, params, body.toList⟩
      program := s.program.push line.blanked
      current := none }
  | _, some (opening, name, params, body) =>
    { s with program := s.program.push line.blanked, current := some (opening, name, params, body.push line) }
  | _, none => { s with program := s.program.push line }

/-- The definitions of a file, and its lines with those of definitions blanked.  A definition that is never closed
is left out. -/
def split (lines : List Line) : List Block × List Line :=
  let s := lines.foldl Splitting.step {}
  (s.blocks.toList, s.program.toList)

end Block

end Abcout
