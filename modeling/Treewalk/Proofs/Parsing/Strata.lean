/-
  Treewalk/Proofs/Parsing/Strata.lean
  ===================================
  **The order of precedences**, and what the two tables of the parser say of
  one token.  An expression of the stratum `q` is one whose operators outside
  of parentheses all bind as tightly as `q`; reading at `p` is to find the
  strata that `p` admits.
-/
import Treewalk.Parser.Precedence

namespace Treewalk

namespace Precedence

theorem not_lt {p q : Precedence} : ¬ p < q ↔ q ≤ p := Nat.not_lt

theorem not_le {p q : Precedence} : ¬ p ≤ q ↔ q < p := Nat.not_le

theorem le_refl (p : Precedence) : p ≤ p := Nat.le_refl _

theorem le_of_lt {p q : Precedence} (h : p < q) : p ≤ q := Nat.le_of_lt h

theorem le_trans {p q r : Precedence} (h : p ≤ q) (h' : q ≤ r) : p ≤ r := Nat.le_trans h h'

theorem lt_of_lt_of_le {p q r : Precedence} (h : p < q) (h' : q ≤ r) : p < r :=
  Nat.lt_of_lt_of_le h h'

theorem lowest_le (p : Precedence) : .lowest ≤ p := Nat.zero_le _

theorem le_call (p : Precedence) : p ≤ .call := by
  cases p <;> decide

/-- Whether an expression of the stratum `q` is read when the precedence `p` is asked for.
    A unary operator is an operand, so its stratum is admitted even where it does not bind
    tighter than `p`. -/
def Admits (p q : Precedence) : Prop := p < q ∨ q = .unary

theorem admits_call {p : Precedence} (h : p ≤ .unary) : p.Admits .call :=
  .inl (lt_of_lt_of_le (Nat.lt_succ_of_le h) (le_refl _))

theorem lt_of_admits {p q : Precedence} (h : p.Admits q) (hp : p < .unary) : p < q := by
  rcases h with h | rfl
  · exact h
  · exact hp

/-- What is admitted in place of an operand of a unary operator can be one. -/
theorem unary_le_of_admits {q : Precedence} (h : unary.Admits q) : .unary ≤ q := by
  rcases h with h | rfl
  · exact le_of_lt h
  · exact le_refl _

theorem equality_le_of_admits {q : Precedence} (h : lowest.Admits q) : .equality ≤ q :=
  lt_of_admits h (by decide)

end Precedence

namespace Kind

/-- A token carries nothing on exactly when it has the lowest precedence. -/
theorem continuation?_eq_none_iff (k : Kind) :
    k.continuation? = none ↔ k.precedence ≤ .lowest := by
  cases k <;> decide

theorem precedence_lt_unary_of_operator {k : Kind} (h : k.continuation? = some .operator) :
    k.precedence < .unary := by
  revert h
  cases k <;> decide

theorem continuation?_eq_arguments_iff (k : Kind) :
    k.continuation? = some .arguments ↔ k = .leftParen := by
  cases k <;> decide

def isUnary : Kind → Bool
  | bang | minus => true
  | _ => false

end Kind

end Treewalk
