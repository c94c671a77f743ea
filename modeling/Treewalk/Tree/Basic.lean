/-
  Treewalk/Tree/Basic.lean
  ========================
  **Syntax trees**: expressions, statements, blocks and programs.

  A block is a list of statements.  Names and operators are texts of any form
  and numbers are integers of any size, so there are more trees than programs
  that can be written; every one of them can be printed and evaluated.
-/

namespace Treewalk

mutual
inductive Expr where
  /-- Nothing where an expression could stand, as behind a bare `return`. -/
  | empty
  | ident (name : String)
  | int (value : Int)
  | bool (value : Bool)
  | unary (op : String) (operand : Expr)
  | binary (left : Expr) (op : String) (right : Expr)
  /-- A choice between two blocks, of which the second may be missing. -/
  | cond (test : Expr) (body : List Stmt) (other : Option (List Stmt))
  | fn (params : List String) (body : List Stmt)
  | call (callee : Expr) (args : List Expr)

inductive Stmt where
  /-- No statement at all. -/
  | empty
  | define (name : String) (value : Expr)
  | ret (value : Expr)
  | expr (value : Expr)
  | block (body : List Stmt)
end

/-- A sequence of statements, as it stands between braces. -/
abbrev Block := List Stmt

/-- A whole program is a sequence of statements too. -/
abbrev Program := List Stmt

instance : Inhabited Expr := ⟨.empty⟩

instance : Inhabited Stmt := ⟨.empty⟩

end Treewalk
