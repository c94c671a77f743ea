/-
  Treewalk/Proofs/Parsing/Calls.lean
  ==================================
  **Parsing step by step**, with the calls that are active on a stack.  The
  parser once more, written as a script of what it does: it reads tokens, calls
  itself for the expressions and blocks inside, and takes rounds of loops.
  Nothing limits how many calls are active or how many rounds a loop takes, and
  the table of operators may have no entry for a token.  So it is open here
  whether the steps come to an end, and to which.
-/
import Mathlib.Logic.Function.Iterate
import Treewalk.Parser.Source

namespace Treewalk

/-- What the parser calls itself for. -/
inductive Goal : Type → Type where
  | expression (p : Precedence) : Goal Expr
  | block : Goal Block

/-- What there is to be done for a result. -/
inductive Script : Type → Type 1 where
  | done {α : Type} (a : α) : Script α
  /-- There is no entry for a token that is to carry an expression on. -/
  | missing {α : Type} (kind : Kind) : Script α
  | read {α β : Type} (p : Parser β) (next : β → Script α) : Script α
  | call {α β : Type} (goal : Goal β) (next : β → Script α) : Script α
  /-- Takes rounds until one answers `none`. -/
  | loop {α β : Type} (round : β → Script (Option β)) (b : β) (next : β → Script α) : Script α

namespace Script

variable {α β γ : Type}

def bind : Script α → (α → Script β) → Script β
  | done a, f => f a
  | missing kind, _ => missing kind
  | read p next, f => read p fun b => (next b).bind f
  | call goal next, f => call goal fun b => (next b).bind f
  | loop round b next, f => loop round b fun c => (next c).bind f

instance : Monad Script where
  pure := done
  bind := bind

theorem bind_assoc (w : Script α) (f : α → Script β) (g : β → Script γ) :
    w >>= f >>= g = w >>= fun a => f a >>= g := by
  show (w.bind f).bind g = w.bind fun a => (f a).bind g
  induction w with
  | done a => rfl
  | missing kind => rfl
  | read p next ih => exact congrArg (read p) (funext fun b => ih b f)
  | call goal next ih => exact congrArg (call goal) (funext fun b => ih b f)
  | loop round b next _ ih => exact congrArg (loop round b) (funext fun c => ih c f)

theorem bind_done (w : Script α) : w >>= done = w := by
  show w.bind done = w
  induction w with
  | done a => rfl
  | missing kind => rfl
  | read p next ih => exact congrArg (read p) (funext ih)
  | call goal next ih => exact congrArg (call goal) (funext ih)
  | loop round b next _ ih => exact congrArg (loop round b) (funext ih)

/-- Does as a parser does. -/
def lift (p : Parser α) : Script α := read p done

def repeated (round : α → Script (Option α)) (a : α) : Script α := loop round a done

def commaSeparated (item : Script α) : Script (List α) := do
  if ← lift (Parser.accept .rightParen) then
    return []
  else
    let first ← item
    let reversed ← repeated (fun reversed => do
      if ← lift (Parser.accept .comma) then
        return some ((← item) :: reversed)
      else
        return none) [first]
    lift (discard <| Parser.expect .rightParen)
    return reversed.reverse

/-! ### Expressions -/

def expression (p : Precedence) : Script Expr := call (.expression p) done

def block : Script Block := call .block done

def choice : Script Expr := do
  lift (discard <| Parser.expect .leftParen)
  let test ← expression .lowest
  lift (discard <| Parser.expect .rightParen)
  lift (discard <| Parser.expect .leftBrace)
  let body ← block
  if ← lift (Parser.accept .elseWord) then
    lift (discard <| Parser.expect .leftBrace)
    return .cond test body (some (← block))
  else
    return .cond test body none

def function : Script Expr := do
  lift (discard <| Parser.expect .leftParen)
  let params ← commaSeparated (lift (Parser.expect .ident))
  lift (discard <| Parser.expect .leftBrace)
  return .fn params (← block)

def group : Script Expr := do
  let e ← expression .lowest
  lift (discard <| Parser.expect .rightParen)
  return e

def operand : Script Expr := do
  match ← lift get with
  | [] => lift (Parser.fail (.noOperand .eof))
  | t :: _ =>
    match t.kind with
    | .ident => lift Parser.advance; return .ident t.text
    | .int =>
      match Number.ofNumeral? t.text.toList with
      | some value => lift Parser.advance; return .int value
      | none => lift (Parser.fail (.tooLarge t.text))
    | .trueWord => lift Parser.advance; return .bool true
    | .falseWord => lift Parser.advance; return .bool false
    | .bang | .minus => lift Parser.advance; return .unary t.text (← expression .unary)
    | .leftParen => lift Parser.advance; group
    | .ifWord => lift Parser.advance; choice
    | .fnWord => lift Parser.advance; function
    | kind => lift (Parser.fail (.noOperand kind))

def carryOn (p : Precedence) (left : Expr) : Script (Option Expr) := do
  let kind ← lift Parser.peek
  if p < kind.precedence then
    match kind.continuation? with
    | some .operator =>
      let operator ← lift (Parser.expect kind)
      return some (.binary left operator (← expression kind.precedence))
    | some .arguments =>
      lift Parser.advance
      return some (.call left (← commaSeparated (expression .lowest)))
    | none => missing kind
  else
    return none

def climb (p : Precedence) (left : Expr) : Script Expr := repeated (carryOn p) left

/-! ### Statements -/

def definition : Script Stmt := do
  let name ← lift (Parser.expect .ident)
  lift (discard <| Parser.expect .assign)
  let value ← expression .lowest
  lift (discard <| Parser.expect .semicolon)
  return .define name value

def returned : Script Stmt := do
  if ← lift (Parser.accept .semicolon) then
    return .ret .empty
  else
    let value ← expression .lowest
    lift (discard <| Parser.expect .semicolon)
    return .ret value

def expressionStatement : Script Stmt := do
  let value ← expression .lowest
  lift (discard <| Parser.accept .semicolon)
  return .expr value

def statement : Script (Option Stmt) := do
  match ← lift Parser.peek with
  | .letWord => lift Parser.advance; return some (← definition)
  | .returnWord => lift Parser.advance; return some (← returned)
  | .leftBrace => lift Parser.advance; return some (.block (← block))
  | .semicolon => lift Parser.advance; return none
  | _ => return some (← expressionStatement)

def nextStatement (isEnd : Kind → Bool) (reversed : List Stmt) :
    Script (Option (List Stmt)) := do
  if isEnd (← lift Parser.peek) then
    return none
  else
    return some ((← statement).toList ++ reversed)

def statements (isEnd : Kind → Bool) : Script (List Stmt) := do
  let reversed ← repeated (nextStatement isEnd) []
  return reversed.reverse

def blockBody : Script Block := do
  let body ← statements fun kind => kind == .rightBrace || kind == .eof
  lift (discard <| Parser.expect .rightBrace)
  return body

def program : Script Program := statements fun kind => kind == .eof

end Script

/-- What a call does. -/
def Goal.script {α : Type} : Goal α → Script α
  | expression p => do Script.climb p (← Script.operand)
  | block => Script.blockBody

/-! ### Steps -/

/-- The calls that are active, the innermost first, each with what its caller goes on with.  The
    type is that of the result for the innermost one. -/
inductive Calls : Type → Type 1 where
  | none : Calls Program
  | frame {α β : Type} (goal : Goal α) (next : α → Script β) (outer : Calls β) : Calls α

def Calls.depth : {α : Type} → Calls α → Nat
  | _, none => 0
  | _, frame _ _ outer => outer.depth + 1

/-- Why parsing stops without a program. -/
inductive Halt where
  | refused (failure : Failure)
  | missing (kind : Kind)

/-- Parsing under way, with what is to be done for the innermost call and the tokens that are not
    yet read; or what has come of it. -/
inductive Parsing : Type 1 where
  | active {α : Type} (calls : Calls α) (script : Script α) (unread : List Token)
  | ended (result : Except Halt Program)

namespace Parsing

/-- Answers what a call has come to. -/
def answer {α : Type} (calls : Calls α) (a : α) (unread : List Token) : Parsing :=
  match calls with
  | .none => ended (.ok a)
  | .frame _ next outer => active outer (next a) unread

def step : Parsing → Parsing
  | active calls (.done a) unread => answer calls a unread
  | active _ (.missing kind) _ => ended (.error (.missing kind))
  | active calls (.read p next) unread =>
    match p unread with
    | .ok (b, rest) => active calls (next b) rest
    | .error f => ended (.error (.refused f))
  | active calls (.call goal next) unread => active (.frame goal next calls) goal.script unread
  | active calls (.loop round b next) unread =>
    active calls (round b >>= fun o => o.elim (next b) fun c => .loop round c next) unread
  | ended result => ended result

/-- How many calls are active. -/
def depth : Parsing → Nat
  | active calls _ _ => calls.depth
  | ended _ => 0

/-- Whether an entry is looked up that does not exist. -/
def isStuck : Parsing → Bool
  | active _ (.missing _) _ => true
  | _ => false

/-- Before the first step. -/
def start (text : String) : Parsing :=
  active .none Script.program ((scan text).map (·.token))

end Parsing

end Treewalk
