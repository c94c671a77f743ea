/-
  Treewalk/Proofs/Evaluation/Gauge.lean
  =====================================
  **The evaluator with two gauges**, which show the greatest number of calls
  that were under way at one time, and the greatest number of expressions that
  were evaluated one inside the other.

  The gauges are only written to and never read, so nothing that is evaluated
  depends on them.  The evaluation of an expression is given its level, which
  is one more than the number of expressions around it, calls included.

  What gauged and plain evaluation have to do with each other is shown in one
  place for all relations that are wanted: `Congruence` lists what a relation
  has to be closed under, and the pieces of the two evaluators are then
  related because they are composed in the same way.
-/
import Treewalk.Evaluation.Basic
import Treewalk.Proofs.Evaluation.Operations

namespace Treewalk

/-- A machine, and the greatest numbers that were reached on it. -/
structure Gauge where
  machine : Machine
  /-- The greatest number of calls that were under way. -/
  calls : Nat
  /-- The greatest number of expressions that were evaluated one inside the other. -/
  nesting : Nat

def Gauge.start (m : Machine) : Gauge := ⟨m, m.callDepth, 0⟩

/-- A computation that changes a gauged machine, and may fail. -/
abbrev Gauged := ExceptT Fault (StateM Gauge)

namespace Gauged

variable {α : Type}

/-- A computation that the gauges do not notice. -/
def lift (c : Eval α) : Gauged α := fun g =>
  let (result, m) := c g.machine
  (result, { g with machine := m })

def withinCall (body : Gauged α) : Gauged α := fun g =>
  let m := { g.machine with callDepth := g.machine.callDepth + 1 }
  let (result, g) := body ⟨m, max g.calls m.callDepth, g.nesting⟩
  (result, { g with machine := { g.machine with callDepth := g.machine.callDepth - 1 } })

def endingCalls (body : Gauged α) : Gauged α := fun g =>
  let (result, g) := body g
  (result, { g with machine := { g.machine with callDepth := 0 } })

/-- Notes that an expression is evaluated at a level. -/
def entering (level : Nat) : Gauged Unit := fun g =>
  (.ok (), { g with nesting := max g.nesting level })

def unlessReturned (v : Value) (next : Value → Gauged Value) : Gauged Value :=
  match v with
  | .returned _ => pure v
  | v => next v

section Pieces

/-! In all pieces, `eval` evaluates an expression in a scope. -/

variable (eval : ScopeId → Expr → Gauged Value)

/-! ### Statements -/

mutual
def statement (s : ScopeId) : Stmt → Gauged Value
  | .empty => pure .null
  | .define name e => do
    unlessReturned (← eval s e) fun v => do
      lift (Eval.bind s name v)
      return .null
  | .ret e => do
    unlessReturned (← eval s e) fun v => return .returned v
  | .expr e => eval s e
  | .block body => statements s body .null

def statements (s : ScopeId) : List Stmt → Value → Gauged Value
  | [], last => pure last
  | stmt :: rest, _ => do
    unlessReturned (← statement s stmt) fun v => statements s rest v
end

def block (s : ScopeId) (body : Block) : Gauged Value := statements eval s body .null

/-! ### Calls -/

def withArguments (s : ScopeId) : List Expr → (List Value → Gauged Value) → Gauged Value
  | [], next => next []
  | e :: es, next => do
    unlessReturned (← eval s e) fun v => withArguments s es fun vs => next (v :: vs)

/-- Runs a body in a new scope, unless there are too many calls under way. -/
def call (limit : Int) (captured : ScopeId) (b : Bindings) (body : ScopeId → Gauged Value) :
    Gauged Value := do
  if limit ≤ (← lift Eval.callDepth) then
    throw (.callsTooDeep limit)
  else
    let s ← lift (Eval.enclose captured b)
    let v ← withinCall (body s)
    return v.unwrap

def apply (limit : Int) (f : Value) (args : List Value) : Gauged Value :=
  match f with
  | .fn params body captured =>
    if args.length ≠ params.length then
      throw (.wrongArity params.length args.length)
    else
      call limit captured (Eval.parameters params args) fun s => block eval s body
  | f => throw (.notFunction f.kind)

/-! ### Expressions -/

def choose (s : ScopeId) (test : Value) (body : Block) (other : Option Block) :
    Gauged Value := do
  if ← lift (Eval.ofResult test.truth) then
    block eval s body
  else
    match other with
    | some other => block eval s other
    | none => return .null

def step (limit : Int) (s : ScopeId) : Expr → Gauged Value
  | .empty => pure .null
  | .ident name => lift (Eval.read s name)
  | .int v => pure (.int v)
  | .bool b => pure (.bool b)
  | .unary op e => do
    unlessReturned (← eval s e) fun v => lift (Eval.ofResult (v.unary op))
  | .binary l op r => do
    unlessReturned (← eval s l) fun v => do
      unlessReturned (← eval s r) fun w => lift (Eval.ofResult (v.binary op w))
  | .cond test body other => do
    unlessReturned (← eval s test) fun v => choose eval s v body other
  | .fn params body => pure (.fn params body s)
  | .call callee args => do
    unlessReturned (← eval s callee) fun f =>
      withArguments eval s args fun vs => apply eval limit f vs

end Pieces

/-- Evaluates an expression, with `outer` expressions around it. -/
def expression (limit : Int) (allowance outer : Nat) (s : ScopeId) (e : Expr) :
    Gauged Value := do
  entering (outer + 1)
  match allowance with
  | 0 => throw .nestedTooDeep
  | allowance + 1 => step (expression limit allowance (outer + 1)) limit s e

def program (limit : Int) (allowance : Nat) (s : ScopeId) (p : Program) : Gauged Value := do
  let v ← endingCalls (block (expression limit allowance 0) s p)
  return v.unwrap

theorem call_apply (limit : Int) (captured : ScopeId) (b : Bindings)
    (body : ScopeId → Gauged Value) (σ : Gauge) :
    call limit captured b body σ =
      if limit ≤ σ.machine.callDepth then (.error (.callsTooDeep limit), σ)
      else (withinCall (body σ.machine.scopes.size) >>= fun v => pure v.unwrap)
        { σ with machine.scopes := σ.machine.scopes.enclose captured b } := by
  rw [call, Eval.bind_apply]
  simp only [lift, Eval.callDepth]
  split <;> rfl

/-- What is made of a result leaves the machine and the gauges alone. -/
theorem unwrap_snd (g : Gauged Value) (σ : Gauge) :
    ((g >>= fun v => pure v.unwrap) σ).2 = (g σ).2 := by
  rw [Eval.bind_apply]
  rcases g σ with ⟨f | v, σ'⟩ <;> rfl

end Gauged

/-! ### Calls of the evaluator -/

namespace Eval

/-- Runs a body in a new scope, unless there are too many calls under way. -/
def call (limit : Int) (captured : ScopeId) (b : Bindings) (body : ScopeId → Eval Value) :
    Eval Value := do
  if limit ≤ (← callDepth) then
    throw (.callsTooDeep limit)
  else
    let s ← enclose captured b
    let v ← withinCall (body s)
    return v.unwrap

theorem apply_fn (eval : ScopeId → Expr → Eval Value) (limit : Int) (params : List String)
    (body : Block) (captured : ScopeId) (args : List Value) :
    apply eval limit (.fn params body captured) args =
      if args.length ≠ params.length then throw (.wrongArity params.length args.length)
      else call limit captured (parameters params args) fun s => block eval s body := rfl

theorem call_apply (limit : Int) (captured : ScopeId) (b : Bindings)
    (body : ScopeId → Eval Value) (m : Machine) :
    call limit captured b body m =
      if limit ≤ m.callDepth then (.error (.callsTooDeep limit), m)
      else (withinCall (body m.scopes.size) >>= fun v => pure v.unwrap)
        { m with scopes := m.scopes.enclose captured b } := by
  rw [call, bind_apply]
  simp only [callDepth]
  split <;> rfl

end Eval

/-! ### Computations that have to do with no limit -/

/-- The fault comes from a limit on how far an evaluation may go. -/
def Fault.IsLimit : Fault → Prop
  | callsTooDeep _ | nestedTooDeep => True
  | _ => False

/-- The computation fails for no limit, and keeps the number of calls under way. -/
def Eval.Ordinary {α : Type} (c : Eval α) : Prop :=
  ∀ m, (c m).2.callDepth = m.callDepth ∧ ∀ f, (c m).1 = .error f → ¬ f.IsLimit

section Ordinary

variable {α : Type}

theorem ordinary_pure (a : α) : (pure a : Eval α).Ordinary := fun _ => ⟨rfl, nofun⟩

theorem ordinary_throw {f : Fault} (hf : ¬ f.IsLimit) : (throw f : Eval α).Ordinary := by
  intro m
  refine ⟨rfl, fun f' h => ?_⟩
  cases h
  exact hf

theorem ordinary_ofResult {r : Except Fault α} (hr : ∀ f, r = .error f → ¬ f.IsLimit) :
    (Eval.ofResult r).Ordinary :=
  fun _ => ⟨rfl, hr⟩

theorem ordinary_read (s : ScopeId) (x : String) : (Eval.read s x).Ordinary := by
  intro m
  unfold Eval.read
  split
  · exact ⟨rfl, nofun⟩
  · refine ⟨rfl, fun f h => ?_⟩
    cases h
    exact id

theorem ordinary_define (s : ScopeId) (x : String) (v : Value) : (Eval.bind s x v).Ordinary :=
  fun _ => ⟨rfl, nofun⟩

theorem truth_not_isLimit {v : Value} {f : Fault} (h : v.truth = .error f) : ¬ f.IsLimit := by
  obtain ⟨params, body, s, rfl⟩ := fault_truth h
  exact id

theorem unary_not_isLimit {op : String} {v : Value} {f : Fault} (h : v.unary op = .error f) :
    ¬ f.IsLimit := by
  rcases fault_unary h with ⟨params, body, s, rfl⟩ | rfl | rfl | ⟨x, -, -, rfl⟩ <;> exact id

theorem binary_not_isLimit {op : String} {v w : Value} {f : Fault}
    (h : v.binary op w = .error f) : ¬ f.IsLimit := by
  rcases fault_binary h with rfl | rfl | ⟨x, y, -, -, rfl | ⟨z, -, -, rfl⟩⟩ <;> exact id

end Ordinary

/-! ### Relations between gauged and plain computations -/

/-- What a relation between gauged and plain computations is closed under, so that it holds of
    two evaluations when it holds of their parts.  The two have limits of their own. -/
structure Congruence (limit limit' : Int) (Rel : {α : Type} → Gauged α → Eval α → Prop) :
    Prop where
  ordinary {α : Type} {c : Eval α} : c.Ordinary → Rel (Gauged.lift c) c
  bind {α β : Type} {g : Gauged α} {c : Eval α} {next : α → Gauged β} {next' : α → Eval β} :
    Rel g c → (∀ a, Rel (next a) (next' a)) → Rel (g >>= next) (c >>= next')
  call {captured : ScopeId} {b : Bindings} {g : ScopeId → Gauged Value} {c : ScopeId → Eval Value} :
    (∀ s, Rel (g s) (c s)) → Rel (Gauged.call limit captured b g) (Eval.call limit' captured b c)

namespace Congruence

variable {limit limit' : Int} {Rel : {α : Type} → Gauged α → Eval α → Prop}
  (h : Congruence limit limit' Rel)

include h

theorem pure {α : Type} (a : α) : Rel (Pure.pure a) (Pure.pure a) := h.ordinary (ordinary_pure a)

theorem unlessReturned {v : Value} {next : Value → Gauged Value} {next' : Value → Eval Value}
    (hnext : ∀ v, Rel (next v) (next' v)) :
    Rel (Gauged.unlessReturned v next) (Eval.unlessReturned v next') := by
  cases v with
  | returned v => exact h.pure _
  | int | bool | null | fn => exact hnext _

/-- The usual way to go on with a value. -/
theorem carry {g : Gauged Value} {c : Eval Value} {next : Value → Gauged Value}
    {next' : Value → Eval Value} (hfirst : Rel g c) (hnext : ∀ v, Rel (next v) (next' v)) :
    Rel (g >>= fun v => Gauged.unlessReturned v next)
      (c >>= fun v => Eval.unlessReturned v next') :=
  h.bind hfirst fun _ => h.unlessReturned hnext

variable {eval : ScopeId → Expr → Gauged Value} {eval' : ScopeId → Expr → Eval Value}

mutual
theorem statement (heval : ∀ s e, Rel (eval s e) (eval' s e)) (s : ScopeId) :
    ∀ stmt : Stmt, Rel (Gauged.statement eval s stmt) (Eval.statement eval' s stmt)
  | .empty => h.pure _
  | .define x e => h.carry (heval s e) fun v =>
      h.bind (h.ordinary (ordinary_define s x v)) fun _ => h.pure _
  | .ret e => h.carry (heval s e) fun _ => h.pure _
  | .expr e => heval s e
  | .block body => statements heval s body _
termination_by structural stmt => stmt

theorem statements (heval : ∀ s e, Rel (eval s e) (eval' s e)) (s : ScopeId) :
    ∀ (body : List Stmt) (last : Value),
      Rel (Gauged.statements eval s body last) (Eval.statements eval' s body last)
  | [], _ => h.pure _
  | stmt :: rest, _ => h.carry (statement heval s stmt) fun v => statements heval s rest v
termination_by structural body => body
end

variable (heval : ∀ s e, Rel (eval s e) (eval' s e))

include heval

theorem block (s : ScopeId) (body : Block) :
    Rel (Gauged.block eval s body) (Eval.block eval' s body) :=
  h.statements heval s body .null

theorem withArguments (s : ScopeId) (es : List Expr) {next : List Value → Gauged Value}
    {next' : List Value → Eval Value} (hnext : ∀ vs, Rel (next vs) (next' vs)) :
    Rel (Gauged.withArguments eval s es next) (Eval.withArguments eval' s es next') := by
  induction es generalizing next next' with
  | nil => exact hnext []
  | cons e es ih => exact h.carry (heval s e) fun v => ih fun vs => hnext (v :: vs)

theorem apply (f : Value) (args : List Value) :
    Rel (Gauged.apply eval limit f args) (Eval.apply eval' limit' f args) := by
  cases f with
  | int | bool | null | returned => exact h.ordinary (ordinary_throw id)
  | fn params body captured =>
    rw [Eval.apply_fn, Gauged.apply]
    split
    · exact h.ordinary (ordinary_throw id)
    · exact h.call fun s => h.block heval s body

theorem choose (s : ScopeId) (test : Value) (body : Block) (other : Option Block) :
    Rel (Gauged.choose eval s test body other) (Eval.choose eval' s test body other) := by
  refine h.bind (h.ordinary (ordinary_ofResult fun _ => truth_not_isLimit)) fun b => ?_
  cases b with
  | true => exact h.block heval s body
  | false =>
    cases other with
    | some other => exact h.block heval s other
    | none => exact h.pure _

theorem step (s : ScopeId) (e : Expr) :
    Rel (Gauged.step eval limit s e) (Eval.step eval' limit' s e) := by
  cases e with
  | empty | int | bool | fn => exact h.pure _
  | ident x => exact h.ordinary (ordinary_read s x)
  | unary op e =>
    exact h.carry (heval s e) fun _ => h.ordinary (ordinary_ofResult fun _ => unary_not_isLimit)
  | binary l op r =>
    exact h.carry (heval s l) fun _ => h.carry (heval s r) fun _ =>
      h.ordinary (ordinary_ofResult fun _ => binary_not_isLimit)
  | cond test body other =>
    exact h.carry (heval s test) fun v => h.choose heval s v body other
  | call callee args =>
    exact h.carry (heval s callee) fun f => h.withArguments heval s args fun vs =>
      h.apply heval f vs

end Congruence

end Treewalk
