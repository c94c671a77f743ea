/-
  Treewalk/Evaluation/Basic.lean
  ==============================
  **Evaluation**: what statements, calls and expressions come to.

  Parts are evaluated in order, and a part that comes to a returned value ends
  everything around it up to the call or program that it returns from.  Blocks
  open no scope; calls do, inside the scope of the function and not of the
  caller.

  Statements and calls are given the evaluation of expressions as a parameter;
  `expression` ties the knot.  A call may run a body that is no part of the
  calling expression, so the recursion is on an allowance for how deep
  expressions nest, calls included; when it is used up, the evaluation fails.
-/
import Treewalk.Evaluation.Machine
import Treewalk.Value.Operation

namespace Treewalk.Eval

section Pieces

/-! In all pieces, `eval` evaluates an expression in a scope. -/

variable (eval : ScopeId → Expr → Eval Value)

/-! ### Statements -/

mutual
def statement (s : ScopeId) : Stmt → Eval Value
  | .empty => pure .null
  | .define name e => do
    unlessReturned (← eval s e) fun v => do
      bind s name v
      return .null
  | .ret e => do
    unlessReturned (← eval s e) fun v => return .returned v
  | .expr e => eval s e
  | .block body => statements s body .null

/-- Evaluates statements in sequence, given the value of the one before them.  The value of
    the last is that of the sequence. -/
def statements (s : ScopeId) : List Stmt → Value → Eval Value
  | [], last => pure last
  | stmt :: rest, _ => do
    unlessReturned (← statement s stmt) fun v => statements s rest v
end

/-- Evaluates a block: the value of one without statements is null. -/
def block (s : ScopeId) (body : Block) : Eval Value := statements eval s body .null

/-! ### Calls -/

/-- Evaluates arguments from left to right, and hands on their values unless one returns. -/
def withArguments (s : ScopeId) : List Expr → (List Value → Eval Value) → Eval Value
  | [], next => next []
  | e :: es, next => do
    unlessReturned (← eval s e) fun v => withArguments s es fun vs => next (v :: vs)

def parameters (names : List String) (values : List Value) : Bindings :=
  (names.zip values).foldl (fun b p => b.set p.1 p.2) []

def apply (limit : Int) (f : Value) (args : List Value) : Eval Value :=
  match f with
  | .fn params body captured => do
    if args.length ≠ params.length then
      throw (.wrongArity params.length args.length)
    else if limit ≤ (← callDepth) then
      throw (.callsTooDeep limit)
    else
      let s ← enclose captured (parameters params args)
      let v ← withinCall (block eval s body)
      return v.unwrap
  | f => throw (.notFunction f.kind)

/-! ### Expressions -/

/-- Evaluates a choice, given the value of its test. -/
def choose (s : ScopeId) (test : Value) (body : Block) (other : Option Block) : Eval Value := do
  if ← ofResult test.truth then
    block eval s body
  else
    match other with
    | some other => block eval s other
    | none => return .null

def step (limit : Int) (s : ScopeId) : Expr → Eval Value
  | .empty => pure .null
  | .ident name => read s name
  | .int v => pure (.int v)
  | .bool b => pure (.bool b)
  | .unary op e => do
    unlessReturned (← eval s e) fun v => ofResult (v.unary op)
  | .binary l op r => do
    unlessReturned (← eval s l) fun v => do
      unlessReturned (← eval s r) fun w => ofResult (v.binary op w)
  | .cond test body other => do
    unlessReturned (← eval s test) fun v => choose eval s v body other
  | .fn params body => pure (.fn params body s)
  | .call callee args => do
    unlessReturned (← eval s callee) fun f =>
      withArguments eval s args fun vs => apply eval limit f vs

end Pieces

/-! ### The knot -/

/-- Evaluates an expression in a scope, with a limit on the calls under way and an allowance
    for how deep expressions nest. -/
def expression (limit : Int) (allowance : Nat) (s : ScopeId) (e : Expr) : Eval Value :=
  match allowance with
  | 0 => throw .nestedTooDeep
  | allowance + 1 => step (expression limit allowance) limit s e

def program (limit : Int) (allowance : Nat) (s : ScopeId) (p : Program) : Eval Value := do
  let v ← endingCalls (block (expression limit allowance) s p)
  return v.unwrap

end Treewalk.Eval
