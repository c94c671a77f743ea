/-
  Treewalk/Value/Basic.lean
  =========================
  **Values**: what expressions come to, and how values are shown and compared.

  A value of a `return` statement is wrapped while it travels up to the call
  or program that it ends.  A function value holds the scope in which it was
  made; two functions are the same when their parameters and bodies are,
  whatever their scopes.
-/
import Treewalk.Tree.Printer

namespace Treewalk

/-- A scope is known by its place in the order in which scopes were opened. -/
abbrev ScopeId := Nat

inductive Value where
  | int (value : Int)
  | bool (value : Bool)
  | null
  /-- A value on its way out of the call or program that a `return` ends. -/
  | returned (value : Value)
  /-- A function, with the scope that its body sees. -/
  | fn (params : List String) (body : Block) (scope : ScopeId)
  deriving DecidableEq

instance : Inhabited Value := ⟨.null⟩

inductive ValueKind where
  | integer
  | boolean
  | null
  | returnValue
  | function
  deriving DecidableEq, Repr

def ValueKind.name : ValueKind → String
  | integer => "INTEGER"
  | boolean => "BOOLEAN"
  | null => "NULL"
  | returnValue => "RETURN_VALUE"
  | function => "FUNCTION"

namespace Value

def kind : Value → ValueKind
  | int _ => .integer
  | bool _ => .boolean
  | null => .null
  | returned _ => .returnValue
  | fn _ _ _ => .function

def display : Value → String
  | int v => toString v
  | bool true => "true"
  | bool false => "false"
  | null => "null"
  | returned v => v.display
  | fn params body _ => (Expr.fn params body).print

/-- Whether two values are the same, scopes of functions apart. -/
def same : Value → Value → Bool
  | int v, int w => v == w
  | bool v, bool w => v == w
  | null, null => true
  | returned v, returned w => v.same w
  | fn ps b _, fn ps' b' _ => ps == ps' && b == b'
  | _, _ => false

/-- The value that a call or a program gives to the outside: one wrapper is taken off. -/
def unwrap : Value → Value
  | returned v => v
  | v => v

/-- The value with every scope in it replaced. -/
def relocate (place : ScopeId → ScopeId) : Value → Value
  | returned v => returned (v.relocate place)
  | fn params body scope => fn params body (place scope)
  | v => v

end Value

end Treewalk
