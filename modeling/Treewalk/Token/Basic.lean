/-
  Treewalk/Token/Basic.lean
  =========================
  **Tokens.**  A token is a kind and the text it was read from.  Where it was
  read is kept apart, in `Placed`, because no meaning depends on it: two texts
  with the same tokens are the same program, however they are laid out.
-/
import Treewalk.Token.Kind

namespace Treewalk

structure Token where
  kind : Kind
  text : String
  deriving DecidableEq, Repr

def Token.display (t : Token) : String := "<" ++ t.kind.name ++ ">" ++ t.text

/-- The token at the end of every text. -/
def Token.eof : Token := ⟨.eof, ""⟩

/-- A token together with the offset of its first character. -/
structure Placed where
  token : Token
  start : Nat
  deriving DecidableEq, Repr

end Treewalk
