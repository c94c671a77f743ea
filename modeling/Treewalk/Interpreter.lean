/-
  Treewalk/Interpreter.lean
  =========================
  **Running a text**: it is parsed, and its program is evaluated in a scope of
  a machine.

  A text that is no program leaves the machine as it is.  A program that fails
  leaves what it bound before it failed.
-/
import Treewalk.Evaluation.Basic
import Treewalk.Parser.Source

namespace Treewalk

/-! ### Limits and errors -/

/-- How far an evaluation may go. -/
structure Limits where
  /-- How many calls may be under way. -/
  calls : Int
  /-- How deep expressions may nest, calls included. -/
  nesting : Nat
  deriving DecidableEq, Repr

def nestingAllowance : Nat := 5000

/-- A limit on calls, with the usual allowance for nested expressions. -/
def Limits.ofCalls (calls : Int) : Limits := ⟨calls, nestingAllowance⟩

def Limits.standard : Limits := .ofCalls 400

/-- Why a text has no value. -/
inductive Error where
  | parse (error : ParseError)
  | fault (fault : Fault)
  deriving DecidableEq

def Error.report : Error → String
  | parse e => e.report
  | fault f => f.message

/-! ### Running -/

def Limits.expression (limits : Limits) : ScopeId → Expr → Eval Value :=
  Eval.expression limits.calls limits.nesting

def Machine.run (m : Machine) (limits : Limits) (s : ScopeId) (p : Program) :
    Except Error Value × Machine :=
  let (result, m) := Eval.program limits.calls limits.nesting s p m
  (result.mapError .fault, m)

def Machine.runText (m : Machine) (limits : Limits) (s : ScopeId) (text : String) :
    Except Error Value × Machine :=
  match parse text with
  | .ok p => m.run limits s p
  | .error e => (.error (.parse e), m)

/-- What came of a program that was run by itself: its value or an error, and what it bound. -/
structure Outcome where
  result : Except Error Value
  bindings : Bindings

/-- The outcome of running in the scope of a new machine. -/
def Outcome.ofRun (run : Machine → Except Error Value × Machine) : Outcome :=
  let (result, m) := run .new
  ⟨result, m.scopes.bindings 0⟩

def runProgram (limits : Limits) (p : Program) : Outcome :=
  .ofRun fun m => m.run limits 0 p

def runText (limits : Limits) (text : String) : Outcome :=
  .ofRun fun m => m.runText limits 0 text

/-! ### Calculating -/

/-- What a calculation comes to: a number, or the text of any other value or of an error. -/
inductive Answer where
  | number (value : Int)
  | text (text : String)
  deriving DecidableEq, Repr

/-- Runs a text by itself, for the number that it comes to. -/
def calculate (text : String) : Answer :=
  match (runText .standard text).result with
  | .ok (.int v) => .number v
  | .ok v => .text v.display
  | .error e => .text e.report

end Treewalk
