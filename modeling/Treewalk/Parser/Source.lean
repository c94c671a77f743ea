/-
  Treewalk/Parser/Source.lean
  ===========================
  **From text to tree.**  A text is scanned and its tokens are parsed.  A
  failure is placed at the offset of the offending token, and its report shows
  the text around that place.
-/
import Treewalk.Parser.Expression
import Treewalk.Text.Quoted
import Treewalk.Text.Window
import Treewalk.Token.Scan

namespace Treewalk

/-! ### Errors and their texts -/

def SyntaxError.message : SyntaxError → String
  | noOperand found => "no prefix parse function for " ++ found.name ++ " found"
  | unexpected wanted found =>
    "expected next token to be " ++ wanted.name ++ ", got " ++ found.name ++ " instead"
  | tooLarge numeral => "could not parse " ++ Text.quoted numeral ++ " as 64-bit integer"
  | tooDeep => "expression is nested too deeply"

structure ParseError where
  error : SyntaxError
  text : String
  offset : Nat
  deriving DecidableEq, Repr

def ParseError.report (e : ParseError) : String :=
  "[Parser error] " ++ e.error.message ++ "\n" ++
    Text.pointAt e.text e.offset Text.reportContext

/-- Where the first of the last `count` tokens of a text starts; none are left at its end. -/
def startOfLast (text : String) (tokens : List Placed) (count : Nat) : Nat :=
  match tokens.drop (tokens.length - count) with
  | [] => text.length
  | t :: _ => t.start

/-- Places a failure in the text from which the tokens were scanned. -/
def Failure.locate (f : Failure) (text : String) (tokens : List Placed) : ParseError :=
  ⟨f.error, text, startOfLast text tokens f.unread.length⟩

/-! ### Parsing a text -/

/-- How many expressions and blocks may stand one inside the other. -/
def nestingLimit : Nat := 1000

/-- Scans a text and reads its tokens from the front. -/
def readText {α : Type} (parser : Parser α) (text : String) :
    Except ParseError (α × List Token) :=
  let tokens := scan text
  match parser (tokens.map (·.token)) with
  | .ok result => .ok result
  | .error f => .error (f.locate text tokens)

/-- The tree of a program, with a limit on its nesting. -/
def parseWithin (limit : Nat) (text : String) : Except ParseError Program :=
  (·.1) <$> readText (Parser.program limit) text

def parse (text : String) : Except ParseError Program := parseWithin nestingLimit text

/-- An expression at the front of a text, with the last token that was read for it and the
    next one. -/
structure Excerpt where
  tree : Expr
  last : Placed
  next : Placed
  deriving DecidableEq

/-- Reads an expression from the front of a text. -/
def parseExpression (p : Precedence) (text : String) : Except ParseError Excerpt := do
  let (tree, unread) ← readText (Parser.expression nestingLimit p) text
  let finish : Placed := ⟨.eof, text.length⟩
  let tokens := scan text
  let count := tokens.length - unread.length
  return ⟨tree, (tokens.take count).getLastD finish, (tokens.drop count).headD finish⟩

end Treewalk
