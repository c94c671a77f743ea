/-
  Treewalk/Text/LineEnd.lean
  ==========================
  **Line ends.**  Files end their lines with a line feed, with a carriage
  return, or with both in that order.  As a program they all read as a line
  feed.
-/

namespace Treewalk.Text

/-- A text in which every line end is a line feed. -/
def unifyLineEnds : List Char → List Char
  | '\r' :: '\n' :: rest => '\n' :: unifyLineEnds rest
  | '\r' :: rest => '\n' :: unifyLineEnds rest
  | c :: rest => c :: unifyLineEnds rest
  | [] => []

end Treewalk.Text
