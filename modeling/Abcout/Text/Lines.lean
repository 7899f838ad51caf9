/-!
# Abcout.Text.Lines — the lines of a text

A line ends at a line feed, or at a carriage return and a line feed.  Behind the last line end there is no
further line unless some text stands there.
-/

namespace Abcout.Text

/-- Drops one carriage return at the end. -/
def dropReturn (s : List Char) : List Char := if s.getLast? = some '\r' then s.dropLast else s

/-- The lines of a text, without their ends. -/
def lines (s : List Char) : List (List Char) :=
  let pieces := s.splitOn '\n'
  let unended := pieces.getLastD []
  pieces.dropLast.map dropReturn ++ if unended.isEmpty then [] else [unended]

end Abcout.Text
