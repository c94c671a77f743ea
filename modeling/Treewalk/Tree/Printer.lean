/-
  Treewalk/Tree/Printer.lean
  ==========================
  **Printing**: the text of a tree, which reads back as the same tree.

  Every operation stands in parentheses, so no precedence is needed to read
  it.  An expression statement gets a semicolon when another statement
  follows: without it, a parenthesis or a minus sign at the start of the next
  statement would carry the expression on.
-/
import Treewalk.Tree.Equality

namespace Treewalk

/-- Whether a statement is an expression alone. -/
def Stmt.isExpr : Stmt → Bool
  | .expr _ => true
  | _ => false

/-- The mark between a statement and the statements behind it. -/
def Stmt.separator (s : Stmt) (behind : List Stmt) : String :=
  if s.isExpr && !behind.isEmpty then ";" else ""

def commaSeparated (texts : List String) : String := ", ".intercalate texts

/-- A block, given the texts of its statements. -/
def braced (statements : List String) : String :=
  match statements with
  | [] => "\x7b \x7d"
  | _ => "\x7b " ++ " ".intercalate statements ++ " \x7d"

mutual
def Expr.print : Expr → String
  | .empty => ""
  | .ident name => name
  | .int value => toString value
  | .bool true => "true"
  | .bool false => "false"
  | .unary op e => "(" ++ op ++ e.print ++ ")"
  | .binary l op r => "(" ++ l.print ++ " " ++ op ++ " " ++ r.print ++ ")"
  | .cond test body other =>
    "if (" ++ test.print ++ ") " ++ braced (Stmt.printAll body) ++ Stmt.printOther other
  | .fn params body => "fn(" ++ commaSeparated params ++ ") " ++ braced (Stmt.printAll body)
  | .call callee args => callee.print ++ "(" ++ commaSeparated (Expr.printAll args) ++ ")"

def Expr.printAll : List Expr → List String
  | [] => []
  | e :: es => e.print :: Expr.printAll es

/-- The text of a statement that stands alone. -/
def Stmt.print : Stmt → String
  | .empty => ""
  | .define name value => "let " ++ name ++ " = " ++ value.print ++ ";"
  | .ret .empty => "return;"
  | .ret value => "return " ++ value.print ++ ";"
  | .expr value => value.print
  | .block body => braced (Stmt.printAll body)

def Stmt.printAll : List Stmt → List String
  | [] => []
  | s :: rest => (s.print ++ s.separator rest) :: Stmt.printAll rest

def Stmt.printOther : Option (List Stmt) → String
  | none => ""
  | some body => " else " ++ braced (Stmt.printAll body)
end

/-- The text of a program, a line for each statement. -/
def Program.print (p : Program) : String := "\n".intercalate (Stmt.printAll p)

def Node.print : Node → String
  | .program p => Program.print p
  | .stmt s => s.print
  | .expr e => e.print

end Treewalk
