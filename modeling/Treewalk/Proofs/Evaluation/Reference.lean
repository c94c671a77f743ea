/-
  Treewalk/Proofs/Evaluation/Reference.lean
  =========================================
  **The reference evaluator**, in which `return` aborts.

  A computation ends with a value or with an exit, and an exit is a returned
  value or a fault.  Every part of a program is evaluated in order and its
  value is used, with no look at whether it came from a `return`: an exit ends
  the whole sequence by itself.  A returned value is caught in two places
  only, by a call and by a program.  No value is ever wrapped.

  Names, scopes, operators and limits are those of the evaluator.
-/
import Treewalk.Evaluation.Basic

namespace Treewalk

/-- Why a computation does not go on. -/
inductive Exit where
  /-- A `return`, with the value for the call or program that it ends. -/
  | abort (value : Value)
  | fault (fault : Fault)

/-- A computation that changes the machine, and may end early. -/
abbrev Reference := ExceptT Exit (StateM Machine)

namespace Reference

variable {α : Type}

/-- A computation in which nothing is returned. -/
def lift (c : Eval α) : Reference α := fun m =>
  match c m with
  | (.ok a, m) => (.ok a, m)
  | (.error f, m) => (.error (.fault f), m)

/-- Catches a returned value: the body comes to it. -/
def returning (body : Reference Value) : Eval Value := fun m =>
  match body m with
  | (.ok v, m) => (.ok v, m)
  | (.error (.abort v), m) => (.ok v, m)
  | (.error (.fault f), m) => (.error f, m)

section Pieces

/-! In all pieces, `eval` evaluates an expression in a scope. -/

variable (eval : ScopeId → Expr → Reference Value)

/-! ### Statements and calls -/

mutual
def statement (s : ScopeId) : Stmt → Reference Value
  | .empty => pure .null
  | .define name e => do
    let v ← eval s e
    lift (Eval.bind s name v)
    return .null
  | .ret e => do
    let v ← eval s e
    throw (.abort v)
  | .expr e => eval s e
  | .block body => statements s body .null

def statements (s : ScopeId) : List Stmt → Value → Reference Value
  | [], last => pure last
  | stmt :: rest, _ => do
    let v ← statement s stmt
    statements s rest v
end

def block (s : ScopeId) (body : Block) : Reference Value := statements eval s body .null

def arguments (s : ScopeId) : List Expr → Reference (List Value)
  | [] => pure []
  | e :: es => do
    let v ← eval s e
    let vs ← arguments s es
    return v :: vs

def apply (limit : Int) (f : Value) (args : List Value) : Eval Value :=
  match f with
  | .fn params body captured => do
    if args.length ≠ params.length then
      throw (.wrongArity params.length args.length)
    else if limit ≤ (← Eval.callDepth) then
      throw (.callsTooDeep limit)
    else
      let s ← Eval.enclose captured (Eval.parameters params args)
      Eval.withinCall (returning (block eval s body))
  | f => throw (.notFunction f.kind)

/-! ### Expressions -/

def step (limit : Int) (s : ScopeId) : Expr → Reference Value
  | .empty => pure .null
  | .ident name => lift (Eval.read s name)
  | .int v => pure (.int v)
  | .bool b => pure (.bool b)
  | .unary op e => do
    let v ← eval s e
    lift (Eval.ofResult (v.unary op))
  | .binary l op r => do
    let v ← eval s l
    let w ← eval s r
    lift (Eval.ofResult (v.binary op w))
  | .cond test body other => do
    let v ← eval s test
    if ← lift (Eval.ofResult v.truth) then
      block eval s body
    else
      match other with
      | some other => block eval s other
      | none => return .null
  | .fn params body => pure (.fn params body s)
  | .call callee args => do
    let f ← eval s callee
    let vs ← arguments eval s args
    lift (apply eval limit f vs)

end Pieces

def expression (limit : Int) (allowance : Nat) (s : ScopeId) (e : Expr) : Reference Value :=
  match allowance with
  | 0 => throw (.fault .nestedTooDeep)
  | allowance + 1 => step (expression limit allowance) limit s e

def program (limit : Int) (allowance : Nat) (s : ScopeId) (p : Program) : Eval Value :=
  Eval.endingCalls (returning (block (expression limit allowance) s p))

end Reference

end Treewalk
