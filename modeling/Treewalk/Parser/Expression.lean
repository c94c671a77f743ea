/-
  Treewalk/Parser/Expression.lean
  ===============================
  **Expressions, statements and blocks** are read by precedence climbing: an
  operand is read first, and then carried on by the operators and argument
  lists behind it, as long as these bind tighter than the precedence asked
  for.  An operator passes its own precedence on to its right operand, so
  operators of one precedence group to the left.

  Each piece is given the parsers for what it contains, and `expression` and
  `block` tie the pieces together, down to a limit on how deep they nest.
-/
import Treewalk.Number
import Treewalk.Parser.Basic
import Treewalk.Parser.Precedence
import Treewalk.Tree.Equality

namespace Treewalk.Parser

section Pieces

/-! In all pieces, `expr` reads an expression at a precedence, and `block` reads the inside
of a block and its closing brace. -/

variable (expr : Precedence → Parser Expr) (block : Parser Block)

/-! ### Expressions -/

/-- Reads a choice behind its first word. -/
def choice : Parser Expr := do
  discard <| expect .leftParen
  let test ← expr .lowest
  discard <| expect .rightParen
  discard <| expect .leftBrace
  let body ← block
  if ← accept .elseWord then
    discard <| expect .leftBrace
    return .cond test body (some (← block))
  else
    return .cond test body none

/-- Reads a function behind its first word. -/
def function : Parser Expr := do
  discard <| expect .leftParen
  let params ← commaSeparated (expect .ident)
  discard <| expect .leftBrace
  return .fn params (← block)

/-- Reads an expression in parentheses behind the opening one. -/
def group : Parser Expr := do
  let e ← expr .lowest
  discard <| expect .rightParen
  return e

def operand : Parser Expr := fun unread =>
  match unread with
  | [] => fail (.noOperand .eof) []
  | t :: rest =>
    match t.kind with
    | .ident => .ok (.ident t.text, rest)
    | .int =>
      match Number.ofNumeral? t.text.toList with
      | some value => .ok (.int value, rest)
      | none => fail (.tooLarge t.text) unread
    | .trueWord => .ok (.bool true, rest)
    | .falseWord => .ok (.bool false, rest)
    | .bang | .minus => (Expr.unary t.text <$> expr .unary) rest
    | .leftParen => group expr rest
    | .ifWord => choice expr block rest
    | .fnWord => function block rest
    | kind => fail (.noOperand kind) unread

/-- Carries an expression on by one operator or argument list, if the next token binds
    tighter than the given precedence. -/
def carryOn (p : Precedence) (left : Expr) : Parser (Option Expr) := fun unread =>
  match unread with
  | [] => .ok (none, unread)
  | t :: rest =>
    if p < t.kind.precedence then
      match t.kind.continuation? with
      | some .operator =>
        ((fun right => some (.binary left t.text right)) <$> expr t.kind.precedence) rest
      | some .arguments =>
        ((fun args => some (.call left args)) <$> commaSeparated (expr .lowest)) rest
      | none => .ok (none, unread)
    else .ok (none, unread)

/-- Carries an expression on as far as the tokens behind it bind tighter than the given
    precedence. -/
def climb (p : Precedence) (left : Expr) : Parser Expr := loop (carryOn expr p) left

/-! ### Statements -/

/-- Reads a definition behind its first word. -/
def definition : Parser Stmt := do
  let name ← expect .ident
  discard <| expect .assign
  let value ← expr .lowest
  discard <| expect .semicolon
  return .define name value

/-- Reads a return statement behind its first word. -/
def returned : Parser Stmt := do
  if ← accept .semicolon then
    return .ret .empty
  else
    let value ← expr .lowest
    discard <| expect .semicolon
    return .ret value

/-- Reads an expression as a statement; a semicolon may follow. -/
def expressionStatement : Parser Stmt := do
  let value ← expr .lowest
  discard <| accept .semicolon
  return .expr value

/-- Reads a statement; a lone semicolon is none. -/
def statement : Parser (Option Stmt) := do
  match ← peek with
  | .letWord => advance; some <$> definition expr
  | .returnWord => advance; some <$> returned expr
  | .leftBrace => advance; (fun body => some (.block body)) <$> block
  | .semicolon => advance; return none
  | _ => some <$> expressionStatement expr

/-- Reads statements up to a token that ends them, which stays unread. -/
def statements (isEnd : Kind → Bool) : Parser (List Stmt) := do
  let reversed ← loop (fun reversed => do
    if isEnd (← peek) then
      return none
    else
      match ← statement expr block with
      | some s => return some (s :: reversed)
      | none => return some reversed) []
  return reversed.reverse

/-- Reads the inside of a block and its closing brace. -/
def blockBody : Parser Block := do
  let body ← statements expr block fun kind => kind == .rightBrace || kind == .eof
  discard <| expect .rightBrace
  return body

end Pieces

/-! ### Nesting -/

mutual
/-- Reads an expression that binds tighter than a precedence, with at most `limit`
    expressions and blocks one inside the other. -/
def expression (limit : Nat) (p : Precedence) : Parser Expr :=
  match limit with
  | 0 => fail .tooDeep
  | limit + 1 => do
    climb (expression limit) p (← operand (expression limit) (block limit))

/-- Reads the inside of a block and its closing brace, with at most `limit` expressions
    and blocks one inside the other. -/
def block (limit : Nat) : Parser Block :=
  match limit with
  | 0 => fail .tooDeep
  | limit + 1 => blockBody (expression limit) (block limit)
end

/-- Reads a program, which ends where the tokens end. -/
def program (limit : Nat) : Parser Program :=
  statements (expression limit) (block limit) fun kind => kind == .eof

end Treewalk.Parser
