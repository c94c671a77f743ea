/-
  Treewalk/Tree/RoundTrip.lean
  ============================
  **There and back**: a text is parsed and printed, and the print is parsed
  and printed again.
-/
import Treewalk.Parser.Source
import Treewalk.Tree.Printer

namespace Treewalk

/-- What became of a text that was read, printed and read again. -/
structure RoundTrip where
  /-- The print of the tree of the text. -/
  printed : String
  /-- Whether the print has the tree of the text. -/
  sameTree : Bool
  /-- Whether the tree of the print has the same print. -/
  sameText : Bool
  deriving DecidableEq, Repr

/-- Reads a text, prints its tree, and does the same with the print. -/
def roundTrip (text : String) : Except ParseError RoundTrip := do
  let p ← parse text
  let printed := Program.print p
  let q ← parse printed
  return ⟨printed, decide (p = q), decide (printed = Program.print q)⟩

end Treewalk
