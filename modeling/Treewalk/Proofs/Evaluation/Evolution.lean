/-
  Treewalk/Proofs/Evaluation/Evolution.lean
  =========================================
  **How scopes change**: an evaluation binds names one at a time, and opens
  scopes that bind the parameters of a call.  It does nothing else to them, so
  what these two moves keep is kept by every evaluation, however it ends.

  That no scope binds a name twice is such a property.
-/
import Mathlib.Data.List.Nodup
import Mathlib.Logic.Relation
import Treewalk.Evaluation.Basic

namespace Treewalk

/-! ### Moves -/

/-- One move of an evaluation. -/
inductive Scopes.Moves : Scopes → Scopes → Prop
  | bind {scopes : Scopes} (s : ScopeId) (x : String) (v : Value) :
      Moves scopes (scopes.bind s x v)
  | enclose {scopes : Scopes} (s : ScopeId) (names : List String) (values : List Value) :
      Moves scopes (scopes.enclose s (Eval.parameters names values))

/-- Any number of moves lead from the one scopes to the other. -/
abbrev Scopes.Evolves : Scopes → Scopes → Prop := Relation.ReflTransGen Scopes.Moves

/-- What each move keeps is kept. -/
theorem Scopes.Evolves.keeps {P : Scopes → Prop} {scopes scopes' : Scopes}
    (h : scopes.Evolves scopes') (hmoves : ∀ scopes scopes', scopes.Moves scopes' → P scopes →
      P scopes') (hP : P scopes) : P scopes' := by
  induction h with
  | refl => exact hP
  | tail _ hmove ih => exact hmoves _ _ hmove ih

/-- From every machine, and however it ends, the computation makes such moves only. -/
def Evolving {α : Type} (c : Eval α) : Prop := ∀ m : Machine, m.scopes.Evolves (c m).2.scopes

namespace Evolving

variable {α β : Type}

theorem pure (a : α) : Evolving (pure a) := fun _ => .refl

theorem throw (f : Fault) : Evolving (throw f : Eval α) := fun _ => .refl

theorem ofResult (r : Except Fault α) : Evolving (Eval.ofResult r) := fun _ => .refl

theorem read (s : ScopeId) (x : String) : Evolving (Eval.read s x) := by
  intro m
  unfold Eval.read
  split <;> exact .refl

theorem define (s : ScopeId) (x : String) (v : Value) : Evolving (Eval.bind s x v) :=
  fun _ => .single (.bind s x v)

theorem enclose (s : ScopeId) (names : List String) (values : List Value) :
    Evolving (Eval.enclose s (Eval.parameters names values)) :=
  fun _ => .single (.enclose s names values)

theorem callDepth : Evolving Eval.callDepth := fun _ => .refl

theorem bind {c : Eval α} {next : α → Eval β} (h : Evolving c) (hnext : ∀ a, Evolving (next a)) :
    Evolving (c >>= next) := by
  intro m
  have hfirst := h m
  rw [Eval.bind_apply]
  rcases hc : c m with ⟨f | a, m'⟩ <;> rw [hc] at hfirst
  · exact hfirst
  · exact hfirst.trans (hnext a m')

theorem carry {c : Eval Value} {next : Value → Eval Value} (h : Evolving c)
    (hnext : ∀ v, Evolving (next v)) :
    Evolving (c >>= fun v => Eval.unlessReturned v next) := by
  refine h.bind fun v => ?_
  cases v with
  | returned v => exact .pure _
  | int | bool | null | fn => exact hnext _

theorem withinCall {c : Eval α} (h : Evolving c) : Evolving (Eval.withinCall c) :=
  fun m => h { m with callDepth := m.callDepth + 1 }

theorem endingCalls {c : Eval α} (h : Evolving c) : Evolving (Eval.endingCalls c) := h

end Evolving

/-! ### Pieces of the evaluator -/

section Pieces

variable {eval : ScopeId → Expr → Eval Value}

mutual
theorem evolving_statement (heval : ∀ s e, Evolving (eval s e)) (s : ScopeId) :
    ∀ stmt : Stmt, Evolving (Eval.statement eval s stmt)
  | .empty => .pure _
  | .define x e => (heval s e).carry fun v => (Evolving.define s x v).bind fun _ => .pure _
  | .ret e => (heval s e).carry fun _ => .pure _
  | .expr e => heval s e
  | .block body => evolving_statements heval s body _
termination_by structural stmt => stmt

theorem evolving_statements (heval : ∀ s e, Evolving (eval s e)) (s : ScopeId) :
    ∀ (body : List Stmt) (last : Value), Evolving (Eval.statements eval s body last)
  | [], _ => .pure _
  | stmt :: rest, _ =>
    (evolving_statement heval s stmt).carry fun v => evolving_statements heval s rest v
termination_by structural body => body
end

variable (heval : ∀ s e, Evolving (eval s e))

include heval

theorem evolving_block (s : ScopeId) (body : Block) : Evolving (Eval.block eval s body) :=
  evolving_statements heval s body .null

theorem evolving_withArguments (s : ScopeId) (es : List Expr) {next : List Value → Eval Value}
    (hnext : ∀ vs, Evolving (next vs)) : Evolving (Eval.withArguments eval s es next) := by
  induction es generalizing next with
  | nil => exact hnext []
  | cons e es ih => exact (heval s e).carry fun v => ih fun vs => hnext (v :: vs)

theorem evolving_apply (limit : Int) (f : Value) (args : List Value) :
    Evolving (Eval.apply eval limit f args) := by
  cases f with
  | int | bool | null | returned => exact .throw _
  | fn params body captured =>
    simp only [Eval.apply]
    split
    · exact .throw _
    · refine Evolving.callDepth.bind fun depth => ?_
      split
      · exact .throw _
      · refine (Evolving.enclose captured params args).bind fun s => ?_
        exact (evolving_block heval s body).withinCall.bind fun v => .pure _

theorem evolving_choose (s : ScopeId) (test : Value) (body : Block) (other : Option Block) :
    Evolving (Eval.choose eval s test body other) := by
  refine (Evolving.ofResult test.truth).bind fun b => ?_
  cases b with
  | true => exact evolving_block heval s body
  | false =>
    cases other with
    | some other => exact evolving_block heval s other
    | none => exact .pure _

theorem evolving_step (limit : Int) (s : ScopeId) (e : Expr) :
    Evolving (Eval.step eval limit s e) := by
  cases e with
  | empty | int | bool | fn => exact .pure _
  | ident x => exact .read s x
  | unary op e => exact (heval s e).carry fun v => .ofResult _
  | binary l op r => exact (heval s l).carry fun v => (heval s r).carry fun w => .ofResult _
  | cond test body other =>
    exact (heval s test).carry fun v => evolving_choose heval s v body other
  | call callee args =>
    exact (heval s callee).carry fun f => evolving_withArguments heval s args fun vs =>
      evolving_apply heval limit f vs

end Pieces

/-! ### Whole evaluations -/

theorem evolving_expression (limit : Int) (allowance : Nat) (s : ScopeId) (e : Expr) :
    Evolving (Eval.expression limit allowance s e) := by
  induction allowance generalizing s e with
  | zero => exact .throw _
  | succ allowance ih => exact evolving_step ih limit s e

theorem evolving_program (limit : Int) (allowance : Nat) (s : ScopeId) (p : Program) :
    Evolving (Eval.program limit allowance s p) :=
  (evolving_block (evolving_expression limit allowance) s p).endingCalls.bind fun _ => .pure _

/-! ### Names are distinct -/

/-- No scope binds a name twice. -/
def Scopes.Distinct (scopes : Scopes) : Prop := ∀ s, (scopes.bindings s).names.Nodup

theorem Bindings.nodup_set {b : Bindings} (h : b.names.Nodup) (x : String) (v : Value) :
    (b.set x v).names.Nodup := by
  rw [names_set]
  split
  · exact h
  · next hx =>
    rw [← List.concat_eq_append]
    exact h.concat hx

theorem Bindings.nodup_parameters (names : List String) (values : List Value) :
    (Eval.parameters names values).names.Nodup := by
  suffices hfold : ∀ (pairs : List (String × Value)) (b : Bindings), b.names.Nodup →
      (pairs.foldl (fun b p => b.set p.1 p.2) b).names.Nodup from hfold _ [] List.nodup_nil
  intro pairs
  induction pairs with
  | nil => exact fun b hb => hb
  | cons p pairs ih => exact fun b hb => ih _ (nodup_set hb p.1 p.2)

namespace Scopes.Distinct

variable {scopes scopes' : Scopes}

theorem bind (h : scopes.Distinct) (s : ScopeId) (x : String) (v : Value) :
    (scopes.bind s x v).Distinct := by
  intro t
  rw [Scopes.bindings_bind]
  split
  · exact Bindings.nodup_set (h t) x v
  · exact h t

theorem push (h : scopes.Distinct) {scope : Scope} (hscope : scope.bindings.names.Nodup) :
    Scopes.Distinct (scopes.push scope) := by
  intro t
  rw [Scopes.bindings_push]
  split
  · exact hscope
  · exact h t

theorem evolve (h : scopes.Distinct) (hevolves : scopes.Evolves scopes') : scopes'.Distinct := by
  refine hevolves.keeps (fun scopes scopes' hmove h => ?_) h
  cases hmove with
  | bind s x v => exact h.bind s x v
  | enclose s names values => exact h.push (Bindings.nodup_parameters names values)

end Scopes.Distinct

end Treewalk
