/-
  Treewalk/Proofs/Evaluation/Trace.lean
  =====================================
  **The evaluator with a trace**, which keeps what happens in the course of an
  evaluation: the parts that begin and end, the operands of operations, the
  bodies that calls enter and the names that are bound, each with the machine
  as it is at this moment.

  The trace is only written to and never read, so the evaluator with a trace
  does what the plain one does.  It is there for statements on all values and
  machines of an evaluation, be they seen from outside or not.
-/
import Treewalk.Evaluation.Basic

namespace Treewalk

/-! ### Events -/

/-- What has a beginning and, unless it fails, an end with a value. -/
inductive Part where
  | expression (e : Expr)
  | statement (stmt : Stmt)
  | sequence (body : Block)
  | application (callee : Value) (args : List Value)

inductive Event where
  | begins (part : Part)
  | ends (part : Part) (value : Value)
  /-- A unary operation is carried out. -/
  | unary (op : String) (operand : Value)
  | binary (left : Value) (op : String) (right : Value)
  /-- A value decides between the blocks of a choice. -/
  | tests (value : Value)
  /-- A call enters the body of its function, in the scope opened for it. -/
  | enters (s : ScopeId) (body : Block)
  /-- A name has been bound. -/
  | binds (s : ScopeId) (name : String) (value : Value)

/-- The values that an event is about. -/
def Event.values : Event → List Value
  | begins (.application f args) => f :: args
  | begins _ | enters _ _ => []
  | ends (.application f args) v => f :: args ++ [v]
  | ends _ v | unary _ v | tests v | binds _ _ v => [v]
  | binary v _ w => [v, w]

/-- An event, and the machine as it is then. -/
structure Moment where
  event : Event
  machine : Machine

/-- A machine, and what has happened on it. -/
structure Trace where
  machine : Machine
  /-- The last comes first. -/
  moments : List Moment

def Trace.start (m : Machine) : Trace := ⟨m, []⟩

/-! ### The evaluator -/

/-- A computation that changes the machine of a trace, and may fail. -/
abbrev Traced := ExceptT Fault (StateM Trace)

namespace Traced

variable {α : Type}

/-- A computation in which nothing happens that is kept. -/
def lift (c : Eval α) : Traced α := fun t =>
  let (result, m) := c t.machine
  (result, { t with machine := m })

def note (event : Event) : Traced Unit := fun t =>
  (.ok (), { t with moments := ⟨event, t.machine⟩ :: t.moments })

/-- Keeps the beginning of a part, and its end. -/
def spanning (part : Part) (body : Traced Value) : Traced Value := do
  note (.begins part)
  let v ← body
  note (.ends part v)
  return v

def withinCall (body : Traced α) : Traced α := fun t =>
  let (result, t) := body { t with machine.callDepth := t.machine.callDepth + 1 }
  (result, { t with machine.callDepth := t.machine.callDepth - 1 })

def endingCalls (body : Traced α) : Traced α := fun t =>
  let (result, t) := body t
  (result, { t with machine.callDepth := 0 })

def unlessReturned (v : Value) (next : Value → Traced Value) : Traced Value :=
  match v with
  | .returned _ => pure v
  | v => next v

section Pieces

/-! In all pieces, `eval` evaluates an expression in a scope. -/

variable (eval : ScopeId → Expr → Traced Value)

mutual
def statement (s : ScopeId) : Stmt → Traced Value
  | .empty => pure .null
  | .define name e => do
    unlessReturned (← eval s e) fun v => do
      lift (Eval.bind s name v)
      note (.binds s name v)
      return .null
  | .ret e => do
    unlessReturned (← eval s e) fun v => return .returned v
  | .expr e => eval s e
  | .block body => spanning (.sequence body) (statements s body .null)

def statements (s : ScopeId) : List Stmt → Value → Traced Value
  | [], last => pure last
  | stmt :: rest, _ => do
    unlessReturned (← spanning (.statement stmt) (statement s stmt)) fun v => statements s rest v
end

def block (s : ScopeId) (body : Block) : Traced Value :=
  spanning (.sequence body) (statements eval s body .null)

def withArguments (s : ScopeId) : List Expr → (List Value → Traced Value) → Traced Value
  | [], next => next []
  | e :: es, next => do
    unlessReturned (← eval s e) fun v => withArguments s es fun vs => next (v :: vs)

def apply (limit : Int) (f : Value) (args : List Value) : Traced Value :=
  spanning (.application f args) <|
    match f with
    | .fn params body captured => do
      if args.length ≠ params.length then
        throw (.wrongArity params.length args.length)
      else if limit ≤ (← lift Eval.callDepth) then
        throw (.callsTooDeep limit)
      else
        let s ← lift (Eval.enclose captured (Eval.parameters params args))
        let v ← withinCall do
          note (.enters s body)
          block eval s body
        return v.unwrap
    | f => throw (.notFunction f.kind)

def choose (s : ScopeId) (test : Value) (body : Block) (other : Option Block) :
    Traced Value := do
  note (.tests test)
  if ← lift (Eval.ofResult test.truth) then
    block eval s body
  else
    match other with
    | some other => block eval s other
    | none => return .null

def step (limit : Int) (s : ScopeId) : Expr → Traced Value
  | .empty => pure .null
  | .ident name => lift (Eval.read s name)
  | .int v => pure (.int v)
  | .bool b => pure (.bool b)
  | .unary op e => do
    unlessReturned (← eval s e) fun v => do
      note (.unary op v)
      lift (Eval.ofResult (v.unary op))
  | .binary l op r => do
    unlessReturned (← eval s l) fun v => do
      unlessReturned (← eval s r) fun w => do
        note (.binary v op w)
        lift (Eval.ofResult (v.binary op w))
  | .cond test body other => do
    unlessReturned (← eval s test) fun v => choose eval s v body other
  | .fn params body => pure (.fn params body s)
  | .call callee args => do
    unlessReturned (← eval s callee) fun f =>
      withArguments eval s args fun vs => apply eval limit f vs

end Pieces

def expression (limit : Int) (allowance : Nat) (s : ScopeId) (e : Expr) : Traced Value :=
  spanning (.expression e) <|
    match allowance with
    | 0 => throw .nestedTooDeep
    | allowance + 1 => step (expression limit allowance) limit s e

def program (limit : Int) (allowance : Nat) (s : ScopeId) (p : Program) : Traced Value := do
  let v ← endingCalls (block (expression limit allowance) s p)
  return v.unwrap

end Traced

/-! ### The trace changes nothing -/

/-- From every trace, both come to the same result and leave the same machine. -/
def Erases {α : Type} (t : Traced α) (c : Eval α) : Prop :=
  ∀ σ, c σ.machine = ((t σ).1, (t σ).2.machine)

namespace Erases

variable {α β : Type}

theorem pure (a : α) : Erases (pure a) (pure a) := fun _ => rfl

theorem throw (f : Fault) : Erases (throw f : Traced α) (throw f) := fun _ => rfl

theorem lift (c : Eval α) : Erases (Traced.lift c) c := fun _ => rfl

theorem note (event : Event) {t : Traced α} {c : Eval α} (h : Erases t c) :
    Erases (Traced.note event >>= fun _ => t) c :=
  fun σ => h { σ with moments := ⟨event, σ.machine⟩ :: σ.moments }

theorem bind {t : Traced α} {c : Eval α} {next : α → Traced β} {next' : α → Eval β}
    (h : Erases t c) (hnext : ∀ a, Erases (next a) (next' a)) :
    Erases (t >>= next) (c >>= next') := by
  intro σ
  rw [Eval.bind_apply, Eval.bind_apply, h σ]
  rcases t σ with ⟨f | a, σ'⟩
  · rfl
  · exact hnext a σ'

theorem spanning {part : Part} {t : Traced Value} {c : Eval Value} (h : Erases t c) :
    Erases (Traced.spanning part t) c := by
  refine .note (.begins part) ?_
  have hend := h.bind fun v => (Erases.pure v).note (.ends part v)
  rwa [bind_pure] at hend

theorem withinCall {t : Traced α} {c : Eval α} (h : Erases t c) :
    Erases (Traced.withinCall t) (Eval.withinCall c) := by
  intro σ
  have hbody := h { σ with machine.callDepth := σ.machine.callDepth + 1 }
  simp only [Eval.withinCall, hbody]
  rfl

theorem endingCalls {t : Traced α} {c : Eval α} (h : Erases t c) :
    Erases (Traced.endingCalls t) (Eval.endingCalls c) := by
  intro σ
  simp only [Eval.endingCalls, h σ]
  rfl

theorem carry {t : Traced Value} {c : Eval Value} {next : Value → Traced Value}
    {next' : Value → Eval Value} (h : Erases t c) (hnext : ∀ v, Erases (next v) (next' v)) :
    Erases (t >>= fun v => Traced.unlessReturned v next)
      (c >>= fun v => Eval.unlessReturned v next') := by
  refine h.bind fun v => ?_
  cases v with
  | returned v => exact .pure _
  | int | bool | null | fn => exact hnext _

end Erases

section Pieces

variable {eval : ScopeId → Expr → Traced Value} {eval' : ScopeId → Expr → Eval Value}

mutual
theorem erases_statement (heval : ∀ s e, Erases (eval s e) (eval' s e)) (s : ScopeId) :
    ∀ stmt : Stmt, Erases (Traced.statement eval s stmt) (Eval.statement eval' s stmt)
  | .empty => .pure _
  | .define x e => (heval s e).carry fun v =>
      (Erases.lift (Eval.bind s x v)).bind fun _ => (Erases.pure _).note _
  | .ret e => (heval s e).carry fun _ => .pure _
  | .expr e => heval s e
  | .block body => (erases_statements heval s body .null).spanning
termination_by structural stmt => stmt

theorem erases_statements (heval : ∀ s e, Erases (eval s e) (eval' s e)) (s : ScopeId) :
    ∀ (body : List Stmt) (last : Value),
      Erases (Traced.statements eval s body last) (Eval.statements eval' s body last)
  | [], _ => .pure _
  | stmt :: rest, _ =>
    (erases_statement heval s stmt).spanning.carry fun v => erases_statements heval s rest v
termination_by structural body => body
end

variable (heval : ∀ s e, Erases (eval s e) (eval' s e))

include heval

theorem erases_block (s : ScopeId) (body : Block) :
    Erases (Traced.block eval s body) (Eval.block eval' s body) :=
  (erases_statements heval s body .null).spanning

theorem erases_withArguments (s : ScopeId) (es : List Expr) {next : List Value → Traced Value}
    {next' : List Value → Eval Value} (hnext : ∀ vs, Erases (next vs) (next' vs)) :
    Erases (Traced.withArguments eval s es next) (Eval.withArguments eval' s es next') := by
  induction es generalizing next next' with
  | nil => exact hnext []
  | cons e es ih => exact (heval s e).carry fun v => ih fun vs => hnext (v :: vs)

theorem erases_apply (limit : Int) (f : Value) (args : List Value) :
    Erases (Traced.apply eval limit f args) (Eval.apply eval' limit f args) := by
  refine .spanning ?_
  cases f with
  | int | bool | null | returned => exact .throw _
  | fn params body captured =>
    simp only [Eval.apply]
    split
    · exact .throw _
    · refine (Erases.lift Eval.callDepth).bind fun depth => ?_
      split
      · exact .throw _
      · refine (Erases.lift _).bind fun s => ?_
        exact ((erases_block heval s body).note _).withinCall.bind fun v => .pure _

theorem erases_choose (s : ScopeId) (test : Value) (body : Block) (other : Option Block) :
    Erases (Traced.choose eval s test body other) (Eval.choose eval' s test body other) := by
  refine .note _ ((Erases.lift _).bind fun b => ?_)
  cases b with
  | true => exact erases_block heval s body
  | false =>
    cases other with
    | some other => exact erases_block heval s other
    | none => exact .pure _

theorem erases_step (limit : Int) (s : ScopeId) (e : Expr) :
    Erases (Traced.step eval limit s e) (Eval.step eval' limit s e) := by
  cases e with
  | empty | int | bool | fn => exact .pure _
  | ident x => exact .lift _
  | unary op e => exact (heval s e).carry fun v => (Erases.lift _).note _
  | binary l op r =>
    exact (heval s l).carry fun v => (heval s r).carry fun w => (Erases.lift _).note _
  | cond test body other =>
    exact (heval s test).carry fun v => erases_choose heval s v body other
  | call callee args =>
    exact (heval s callee).carry fun f => erases_withArguments heval s args fun vs =>
      erases_apply heval limit f vs

end Pieces

theorem erases_expression (limit : Int) (allowance : Nat) (s : ScopeId) (e : Expr) :
    Erases (Traced.expression limit allowance s e) (Eval.expression limit allowance s e) := by
  induction allowance generalizing s e with
  | zero => exact (Erases.throw _).spanning
  | succ allowance ih => exact (erases_step ih limit s e).spanning

theorem erases_program (limit : Int) (allowance : Nat) (s : ScopeId) (p : Program) :
    Erases (Traced.program limit allowance s p) (Eval.program limit allowance s p) :=
  (erases_block (erases_expression limit allowance) s p).endingCalls.bind fun _ => .pure _

end Treewalk
