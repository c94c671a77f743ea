/-
  Treewalk/Proofs/Printing/RoundTrip.lean
  =======================================
  **Printing and parsing are inverse** on the printable trees, which are
  exactly those that the parser makes.  Only the limit on nesting can come in
  between: a print has parentheses that the text need not have, so a program
  may be parsed and its print refused.
-/
import Treewalk.Proofs.Parsing.Exactness
import Treewalk.Proofs.Printing.Spelling
import Treewalk.Tree.RoundTrip

namespace Treewalk

theorem denotes_print {p : Program} (h : p.Printable) : Denotes (Program.print p) p :=
  denotes_iff.mpr (Program.derives_print h)

theorem printable_of_parseWithin {limit : Nat} {text : String} {p : Program}
    (h : parseWithin limit text = .ok p) : p.Printable :=
  (denotes_iff.mp (denotes_of_parseWithin h)).printable

end Treewalk
