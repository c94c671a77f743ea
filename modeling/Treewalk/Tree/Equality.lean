/-
  Treewalk/Tree/Equality.lean
  ===========================
  **Equality of trees is decidable.**  The trees are compared node by node;
  `Expr.same_iff` and its companions say that the comparison finds exactly the
  equal ones.
-/
import Treewalk.Tree.Basic

namespace Treewalk

/-! ### Comparing -/

mutual
def Expr.same : Expr → Expr → Bool
  | .empty, .empty => true
  | .ident x, .ident y => x == y
  | .int v, .int w => v == w
  | .bool v, .bool w => v == w
  | .unary o e, .unary p f => o == p && e.same f
  | .binary l o r, .binary l' o' r' => l.same l' && (o == o' && r.same r')
  | .cond c b o, .cond c' b' o' => c.same c' && (Stmt.sameBlock b b' && Stmt.sameOther o o')
  | .fn ps b, .fn ps' b' => ps == ps' && Stmt.sameBlock b b'
  | .call f as, .call f' as' => f.same f' && Expr.sameAll as as'
  | _, _ => false
termination_by structural e => e

def Stmt.same : Stmt → Stmt → Bool
  | .empty, .empty => true
  | .define x e, .define y f => x == y && e.same f
  | .ret e, .ret f => e.same f
  | .expr e, .expr f => e.same f
  | .block b, .block c => Stmt.sameBlock b c
  | _, _ => false
termination_by structural s => s

def Stmt.sameBlock : List Stmt → List Stmt → Bool
  | [], [] => true
  | s :: ss, t :: ts => s.same t && Stmt.sameBlock ss ts
  | _, _ => false
termination_by structural b => b

def Stmt.sameOther : Option (List Stmt) → Option (List Stmt) → Bool
  | none, none => true
  | some b, some c => Stmt.sameBlock b c
  | _, _ => false
termination_by structural b => b

def Expr.sameAll : List Expr → List Expr → Bool
  | [], [] => true
  | e :: es, f :: fs => e.same f && Expr.sameAll es fs
  | _, _ => false
termination_by structural es => es
end

/-! ### The comparison is equality -/

mutual
theorem Expr.same_iff : ∀ e f : Expr, e.same f = true ↔ e = f
  | .empty, f | .ident _, f | .int _, f | .bool _, f => by cases f <;> simp [Expr.same]
  | .unary _ e, f => by cases f <;> simp [Expr.same, e.same_iff]
  | .binary l _ r, f => by cases f <;> simp [Expr.same, l.same_iff, r.same_iff]
  | .cond c b o, f => by
    cases f <;> simp [Expr.same, c.same_iff, Stmt.sameBlock_iff b, Stmt.sameOther_iff o]
  | .fn _ b, f => by cases f <;> simp [Expr.same, Stmt.sameBlock_iff b]
  | .call g as, f => by cases f <;> simp [Expr.same, g.same_iff, Expr.sameAll_iff as]
termination_by structural e => e

theorem Stmt.same_iff : ∀ s t : Stmt, s.same t = true ↔ s = t
  | .empty, t => by cases t <;> simp [Stmt.same]
  | .define _ e, t | .ret e, t | .expr e, t => by cases t <;> simp [Stmt.same, e.same_iff]
  | .block b, t => by cases t <;> simp [Stmt.same, Stmt.sameBlock_iff b]
termination_by structural s => s

theorem Stmt.sameBlock_iff : ∀ b c : List Stmt, Stmt.sameBlock b c = true ↔ b = c
  | [], c => by cases c <;> simp [Stmt.sameBlock]
  | s :: ss, c => by cases c <;> simp [Stmt.sameBlock, s.same_iff, Stmt.sameBlock_iff ss]
termination_by structural b => b

theorem Stmt.sameOther_iff :
    ∀ b c : Option (List Stmt), Stmt.sameOther b c = true ↔ b = c
  | none, c => by cases c <;> simp [Stmt.sameOther]
  | some b, c => by cases c <;> simp [Stmt.sameOther, Stmt.sameBlock_iff b]
termination_by structural b => b

theorem Expr.sameAll_iff : ∀ es fs : List Expr, Expr.sameAll es fs = true ↔ es = fs
  | [], fs => by cases fs <;> simp [Expr.sameAll]
  | e :: es, fs => by cases fs <;> simp [Expr.sameAll, e.same_iff, Expr.sameAll_iff es]
termination_by structural es => es
end

instance : DecidableEq Expr := fun e f => decidable_of_iff _ (Expr.same_iff e f)

instance : DecidableEq Stmt := fun s t => decidable_of_iff _ (Stmt.same_iff s t)

/-! ### Nodes -/

inductive Node where
  | program (statements : Program)
  | stmt (statement : Stmt)
  | expr (expression : Expr)
  deriving DecidableEq

end Treewalk
