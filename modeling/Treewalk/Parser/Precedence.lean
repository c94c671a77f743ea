/-
  Treewalk/Parser/Precedence.lean
  ===============================
  **Precedences**: how tightly operators bind, and how an expression is
  carried on by the token behind it.
-/
import Treewalk.Token.Kind

namespace Treewalk

/-- How tightly an operator binds, from loose to tight. -/
inductive Precedence where
  | lowest
  | equality
  | comparison
  | sum
  | product
  | unary
  | call
  deriving DecidableEq, Repr

def Precedence.level : Precedence → Nat
  | lowest => 0
  | equality => 1
  | comparison => 2
  | sum => 3
  | product => 4
  | unary => 5
  | call => 6

instance : LT Precedence := ⟨fun p q => p.level < q.level⟩

instance : LE Precedence := ⟨fun p q => p.level ≤ q.level⟩

instance (p q : Precedence) : Decidable (p < q) := inferInstanceAs (Decidable (p.level < q.level))

instance (p q : Precedence) : Decidable (p ≤ q) := inferInstanceAs (Decidable (p.level ≤ q.level))

/-- The precedence of a token behind an expression; one that carries nothing on has the lowest. -/
def Kind.precedence : Kind → Precedence
  | equal | notEqual => .equality
  | less | greater => .comparison
  | plus | minus => .sum
  | asterisk | slash => .product
  | leftParen => .call
  | _ => .lowest

/-- How a token carries on the expression before it. -/
inductive Continuation where
  | operator
  | arguments
  deriving DecidableEq, Repr

/-- The way in which a token carries on an expression, if it does. -/
def Kind.continuation? : Kind → Option Continuation
  | plus | minus | asterisk | slash | equal | notEqual | less | greater => some .operator
  | leftParen => some .arguments
  | _ => none

/-- The two tables agree: a token carries an expression on if it has a precedence to do so. -/
theorem Kind.isSome_continuation?_iff (k : Kind) :
    k.continuation?.isSome ↔ Precedence.lowest < k.precedence := by
  cases k <;> decide

end Treewalk
