/-
  Treewalk/Value/Operation.lean
  =============================
  **Operations on values**: truth, unary and binary operators.

  Arithmetic is exact, and its results are checked against the range.  A
  quotient is truncated toward zero.  Operands of different kinds do not go
  together, whatever the operator.
-/
import Treewalk.Number
import Treewalk.Value.Fault

namespace Treewalk

/-- A number as a value, if it is in range. -/
def checked (v : Int) : Except Fault Value :=
  if Number.InRange v then .ok (.int v) else .error (.overflow v)

/-- The quotient of two numbers, truncated toward zero. -/
def quotient (a b : Int) : Except Fault Value :=
  if b = 0 then .error (.divisionByZero a) else checked (a.tdiv b)

namespace Value

def truth : Value → Except Fault Bool
  | int v => .ok (decide (v ≠ 0))
  | bool b => .ok b
  | null => .ok false
  | returned v => v.truth
  | fn params body scope => .error (.notTruth (fn params body scope))

def unary (op : String) (v : Value) : Except Fault Value :=
  match op with
  | "!" => (fun b => bool !b) <$> v.truth
  | "-" =>
    match v with
    | int x => checked (-x)
    | v => .error (.notNumber v)
  | op => .error (.unknownUnary op v.kind)

def binaryInt (op : String) (a b : Int) : Except Fault Value :=
  match op with
  | "+" => checked (a + b)
  | "-" => checked (a - b)
  | "*" => checked (a * b)
  | "/" => quotient a b
  | "<" => .ok (bool (decide (a < b)))
  | ">" => .ok (bool (decide (a > b)))
  | "==" => .ok (bool (decide (a = b)))
  | "!=" => .ok (bool (decide (a ≠ b)))
  | op => .error (.unknownBinary op .integer)

/-- A binary operator applied to values of a kind that can only be compared, given whether
    the two are equal. -/
def binaryCompared (op : String) (kind : ValueKind) (equal : Bool) : Except Fault Value :=
  match op with
  | "==" => .ok (bool equal)
  | "!=" => .ok (bool !equal)
  | op => .error (.unknownBinary op kind)

def binary (op : String) (a b : Value) : Except Fault Value :=
  match a, b with
  | int a, int b => binaryInt op a b
  | bool a, bool b => binaryCompared op .boolean (a == b)
  | null, null => binaryCompared op .null true
  | a, b =>
    if a.kind = b.kind then .error (.unknownBinary op a.kind)
    else .error (.typeMismatch a.kind op b.kind)

end Value

end Treewalk
