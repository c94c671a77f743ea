/-
  Treewalk/Value/Fault.lean
  =========================
  **Faults**: the causes for which an evaluation fails, and their texts.
-/
import Treewalk.Value.Basic

namespace Treewalk

/-- Why an evaluation fails. -/
inductive Fault where
  /-- No scope that can be seen binds the name. -/
  | unbound (name : String)
  | typeMismatch (left : ValueKind) (op : String) (right : ValueKind)
  /-- No such operation on two operands of that kind. -/
  | unknownBinary (op : String) (operands : ValueKind)
  | unknownUnary (op : String) (operand : ValueKind)
  /-- Only a number can be negated. -/
  | notNumber (operand : Value)
  /-- A function is neither true nor false. -/
  | notTruth (value : Value)
  | overflow (result : Int)
  | divisionByZero (dividend : Int)
  /-- Only a function can be called. -/
  | notFunction (callee : ValueKind)
  /-- A function takes as many arguments as it has parameters. -/
  | wrongArity (expected got : Nat)
  /-- More calls are under way than the limit allows. -/
  | callsTooDeep (limit : Int)
  /-- Expressions are nested beyond the allowance, calls included. -/
  | nestedTooDeep
  deriving DecidableEq

def Fault.message : Fault → String
  | unbound name => "identifier not found: " ++ name
  | typeMismatch left op right =>
    "type mismatch: " ++ left.name ++ " " ++ op ++ " " ++ right.name
  | unknownBinary op operands =>
    "unknown operator: " ++ operands.name ++ " " ++ op ++ " " ++ operands.name
  | unknownUnary op operand => "unknown operator: " ++ op ++ operand.name
  | notNumber operand => "cannot use '-' operator on " ++ operand.display
  | notTruth value => "cannot cast " ++ value.display ++ " to boolean"
  | overflow result => "integer overflow: " ++ toString result ++ " does not fit in 64 bits"
  | divisionByZero dividend => "division by zero: " ++ toString dividend ++ " / 0"
  | notFunction callee => "not a function: " ++ callee.name
  | wrongArity expected got =>
    "wrong number of arguments: expected " ++ toString expected ++ ", got " ++ toString got
  | callsTooDeep limit =>
    "stack overflow: maximum call depth of " ++ toString limit ++ " exceeded"
  | nestedTooDeep => "stack overflow: expression is nested too deeply"

end Treewalk
