/-
  Treewalk/Proofs/Evaluation/Dissolution.lean
  ===========================================
  **Blocks open no scope, so they can be dissolved**: where a block with
  statements stands among statements, its own statements may stand instead, at
  every depth of a program outside of functions.

  A block ends early where its statements do, and the value of a sequence is
  that of its last statement, be it inside of a block.  An empty block has no
  last statement and a value nevertheless, so it has to stay.

  The bodies of functions are left as they are: a function value shows its
  body.
-/
import Treewalk.Proofs.Evaluation.Plain

namespace Treewalk

/-! ### Dissolving -/

mutual
/-- The expression with the blocks in it dissolved, outside of functions. -/
def Expr.dissolve : Expr → Expr
  | .empty => .empty
  | .ident name => .ident name
  | .int value => .int value
  | .bool value => .bool value
  | .unary op e => .unary op e.dissolve
  | .binary left op right => .binary left.dissolve op right.dissolve
  | .cond test body other =>
    .cond test.dissolve (Stmt.dissolveAll body) (Stmt.dissolveOther other)
  | .fn params body => .fn params body
  | .call callee args => .call callee.dissolve (Expr.dissolveAll args)

def Expr.dissolveAll : List Expr → List Expr
  | [] => []
  | e :: es => e.dissolve :: Expr.dissolveAll es

/-- What stands in the place of a statement: the statements of a block that has any, and one
    statement otherwise. -/
def Stmt.dissolve : Stmt → List Stmt
  | .empty => [.empty]
  | .define name value => [.define name value.dissolve]
  | .ret value => [.ret value.dissolve]
  | .expr value => [.expr value.dissolve]
  | .block body => if body.isEmpty then [.block []] else Stmt.dissolveAll body

def Stmt.dissolveAll : List Stmt → List Stmt
  | [] => []
  | s :: rest => s.dissolve ++ Stmt.dissolveAll rest

def Stmt.dissolveOther : Option (List Stmt) → Option (List Stmt)
  | none => none
  | some body => some (Stmt.dissolveAll body)
end

def Program.dissolve (p : Program) : Program := Stmt.dissolveAll p

/-! ### Nothing is left to dissolve -/

mutual
/-- No block with statements stands among statements in the expression, outside of
    functions. -/
def Expr.Dissolved : Expr → Prop
  | .empty | .ident _ | .int _ | .bool _ | .fn _ _ => True
  | .unary _ e => e.Dissolved
  | .binary left _ right => left.Dissolved ∧ right.Dissolved
  | .cond test body other =>
    test.Dissolved ∧ Stmt.AllDissolved body ∧ Stmt.OtherDissolved other
  | .call callee args => callee.Dissolved ∧ Expr.AllDissolved args

def Expr.AllDissolved : List Expr → Prop
  | [] => True
  | e :: es => e.Dissolved ∧ Expr.AllDissolved es

def Stmt.Dissolved : Stmt → Prop
  | .empty => True
  | .define _ value | .ret value | .expr value => value.Dissolved
  | .block body => body = []

def Stmt.AllDissolved : List Stmt → Prop
  | [] => True
  | s :: rest => s.Dissolved ∧ Stmt.AllDissolved rest

def Stmt.OtherDissolved : Option (List Stmt) → Prop
  | none => True
  | some body => Stmt.AllDissolved body
end

def Program.Dissolved (p : Program) : Prop := Stmt.AllDissolved p

theorem Stmt.allDissolved_append {body rest : List Stmt} (hbody : Stmt.AllDissolved body)
    (hrest : Stmt.AllDissolved rest) : Stmt.AllDissolved (body ++ rest) := by
  induction body with
  | nil => exact hrest
  | cons s body ih => exact ⟨hbody.1, ih hbody.2⟩

mutual
theorem Expr.dissolved_dissolve : ∀ e : Expr, e.dissolve.Dissolved
  | .empty | .ident _ | .int _ | .bool _ | .fn _ _ => trivial
  | .unary _ e => e.dissolved_dissolve
  | .binary left _ right => ⟨left.dissolved_dissolve, right.dissolved_dissolve⟩
  | .cond test body other =>
    ⟨test.dissolved_dissolve, Stmt.dissolved_dissolveAll body, Stmt.dissolved_dissolveOther other⟩
  | .call callee args => ⟨callee.dissolved_dissolve, Expr.dissolved_dissolveAll args⟩
termination_by structural e => e

theorem Expr.dissolved_dissolveAll : ∀ es : List Expr, Expr.AllDissolved (Expr.dissolveAll es)
  | [] => trivial
  | e :: es => ⟨e.dissolved_dissolve, Expr.dissolved_dissolveAll es⟩
termination_by structural es => es

theorem Stmt.dissolved_dissolve : ∀ s : Stmt, Stmt.AllDissolved s.dissolve
  | .empty => ⟨trivial, trivial⟩
  | .define _ value | .ret value | .expr value => ⟨value.dissolved_dissolve, trivial⟩
  | .block body => by
    have hbody := Stmt.dissolved_dissolveAll body
    rw [Stmt.dissolve]
    split
    · exact ⟨rfl, trivial⟩
    · exact hbody
termination_by structural s => s

theorem Stmt.dissolved_dissolveAll : ∀ body : List Stmt, Stmt.AllDissolved (Stmt.dissolveAll body)
  | [] => trivial
  | s :: rest => Stmt.allDissolved_append s.dissolved_dissolve (Stmt.dissolved_dissolveAll rest)
termination_by structural body => body

theorem Stmt.dissolved_dissolveOther :
    ∀ other : Option (List Stmt), Stmt.OtherDissolved (Stmt.dissolveOther other)
  | none => trivial
  | some body => Stmt.dissolved_dissolveAll body
termination_by structural other => other
end

/-! ### Evaluating -/

namespace Eval

section Pieces

variable {eval : ScopeId → Expr → Eval Value}

/-- A sequence of one statement comes to what the statement comes to. -/
theorem statements_singleton (s : ScopeId) (stmt : Stmt) (last : Value) :
    statements eval s [stmt] last = statement eval s stmt := by
  have hlast : (fun v => unlessReturned v fun v => statements eval s [] v) = pure := by
    funext v
    cases v <;> rfl
  rw [statements, hlast, bind_pure]

mutual
theorem statements_dissolve (heval : ∀ s e, eval s e.dissolve = eval s e) (s : ScopeId) :
    ∀ (stmt : Stmt) {last : Value}, last.Plain →
      statements eval s stmt.dissolve last = statement eval s stmt
  | .empty, _, _ => statements_singleton s .empty _
  | .define x e, _, _ => by
    rw [Stmt.dissolve, statements_singleton, statement, statement, heval]
  | .ret e, _, _ => by
    rw [Stmt.dissolve, statements_singleton, statement, statement, heval]
  | .expr e, _, _ => by
    rw [Stmt.dissolve, statements_singleton, statement, statement, heval]
  | .block body, last, hlast => by
    have hbody := statements_dissolveAll heval s body hlast
    cases body with
    | nil => exact statements_singleton s (.block []) last
    -- The value in front of a sequence that is not empty is not looked at.
    | cons stmt rest => exact hbody
termination_by structural stmt => stmt

theorem statements_dissolveAll (heval : ∀ s e, eval s e.dissolve = eval s e) (s : ScopeId) :
    ∀ (body : List Stmt) {last : Value}, last.Plain →
      statements eval s (Stmt.dissolveAll body) last = statements eval s body last
  | [], _, _ => rfl
  | stmt :: rest, last, hlast => by
    rw [Stmt.dissolveAll, statements_append eval s stmt.dissolve _ hlast,
      statements_dissolve heval s stmt hlast, statements]
    congr 1
    funext v
    cases v with
    | returned v => rfl
    | int | bool | null | fn => exact statements_dissolveAll heval s rest trivial
termination_by structural body => body
end

variable (heval : ∀ s e, eval s e.dissolve = eval s e)

include heval

theorem block_dissolve (s : ScopeId) (body : Block) :
    block eval s (Stmt.dissolveAll body) = block eval s body :=
  statements_dissolveAll heval s body trivial

theorem withArguments_dissolve (s : ScopeId) (es : List Expr) (next : List Value → Eval Value) :
    withArguments eval s (Expr.dissolveAll es) next = withArguments eval s es next := by
  induction es generalizing next with
  | nil => rfl
  | cons e es ih => simp only [Expr.dissolveAll, withArguments, heval, ih]

theorem choose_dissolve (s : ScopeId) (test : Value) (body : Block) (other : Option Block) :
    choose eval s test (Stmt.dissolveAll body) (Stmt.dissolveOther other) =
      choose eval s test body other := by
  cases other with
  | none => simp only [Stmt.dissolveOther, choose, block_dissolve heval]
  | some other => simp only [Stmt.dissolveOther, choose, block_dissolve heval]

theorem step_dissolve (limit : Int) (s : ScopeId) (e : Expr) :
    step eval limit s e.dissolve = step eval limit s e := by
  cases e with
  | empty | ident | int | bool | fn => rfl
  | unary op e => simp only [Expr.dissolve, step, heval]
  | binary left op right => simp only [Expr.dissolve, step, heval]
  | cond test body other => simp only [Expr.dissolve, step, heval, choose_dissolve heval]
  | call callee args => simp only [Expr.dissolve, step, heval, withArguments_dissolve heval]

end Pieces

theorem expression_dissolve (limit : Int) (allowance : Nat) (s : ScopeId) (e : Expr) :
    expression limit allowance s e.dissolve = expression limit allowance s e := by
  induction allowance generalizing s e with
  | zero => rfl
  | succ allowance ih => exact step_dissolve ih limit s e

end Eval

/-- **Blocks can be dissolved.**  The program in which all blocks with statements are dissolved
    outside of functions has no such block left to dissolve.  From every machine, and with every
    limit and allowance, it comes to the same value or fault as the program itself, and leaves
    the same scopes with the same bindings. -/
theorem blocks_dissolve (limit : Int) (allowance : Nat) (s : ScopeId) (p : Program)
    (m : Machine) :
    p.dissolve.Dissolved ∧
      Eval.program limit allowance s p.dissolve m = Eval.program limit allowance s p m := by
  have hblock := Eval.block_dissolve (Eval.expression_dissolve limit allowance) s p
  refine ⟨Stmt.dissolved_dissolveAll p, ?_⟩
  rw [Eval.program, Program.dissolve, hblock]
  rfl

/-- An empty block at the end has a value of its own, which is not that of the statement in
    front of it. -/
example : (Eval.program 0 1 0 [.expr (.int 1), .block []] .new).1 = .ok .null ∧
    (Eval.program 0 1 0 [.expr (.int 1)] .new).1 = .ok (.int 1) := ⟨rfl, rfl⟩

end Treewalk
