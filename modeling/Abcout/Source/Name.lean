/-!
# Abcout.Source.Name — the names of labels and macros
-/

namespace Abcout

/-- The machine's only mnemonic.  It may be left out, and names nothing else. -/
def mnemonic : String := "abcout"

/-- The initial kept for the labels of expanded macros. -/
def reservedInitial : Char := 'M'

/-- Whether a text is a lower-case letter or underscore, followed by such and by digits. -/
def isIdentifier : List Char → Bool
  | [] => false
  | c :: cs => (c.isLower || c == '_') && cs.all fun d => d.isLower || d.isDigit || d == '_'

end Abcout
