/-
  Treewalk/Session.lean
  =====================
  **Sessions**: one machine, a growing list of scopes, and commands that
  evaluate in these scopes, look into them and write to them.

  A command names a scope by its place in the list of the session.  The
  machine has more scopes than the list, because calls open scopes of their
  own; function values in commands hold places of the list, which are turned
  into scopes of the machine.
-/
import Treewalk.Interpreter

namespace Treewalk

/-! ### Scopes as text -/

/-- The names that a scope binds, in their order as texts. -/
def Scopes.names (scopes : Scopes) (s : ScopeId) : List String :=
  (scopes.bindings s).names.mergeSort fun x y => decide (x ≤ y)

/-- A scope as text, with the scopes around it one inside the other. -/
def Scopes.display (scopes : Scopes) (s : ScopeId) : String :=
  (scopes.chain s).foldr
    (fun t outer =>
      "Environment([" ++ commaSeparated ((scopes.names t).map Text.quoted) ++
        "], outer=" ++ outer ++ ")")
    "None"

/-! ### Commands and replies -/

/-- A command of a session.  Scopes are places in the session's list. -/
inductive Command where
  | run (scope : Nat) (text : String)
  /-- Evaluates the statements of a program; a returned value stays wrapped. -/
  | statements (scope : Nat) (text : String)
  /-- Evaluates an expression; a returned value stays wrapped. -/
  | expression (scope : Nat) (tree : Expr)
  | apply (callee : Value) (args : List Value)
  | applyNamed (scope : Nat) (name : String) (args : List Value)
  | limit (calls : Int)
  /-- Opens a scope with nothing around it. -/
  | fresh
  | enclosed (scope : Nat)
  | set (scope : Nat) (name : String) (value : Value)
  | get (scope : Nat) (name : String)
  | contains (scope : Nat) (name : String)
  | display (scope : Nat)
  | bindings (scope : Nat)

inductive Reply where
  | nothing
  | value (value : Value)
  | place (scope : Nat)
  | truth (answer : Bool)
  | text (text : String)
  | bindings (bindings : Bindings)
  | error (error : Error)

def Reply.ofOption : Option Value → Reply
  | some v => .value v
  | none => .nothing

def Reply.ofResult : Except Error Value → Reply
  | .ok v => .value v
  | .error e => .error e

/-! ### Sessions -/

structure Session where
  machine : Machine
  /-- The session's scopes, in the order in which they were opened. -/
  places : Array ScopeId
  limits : Limits

namespace Session

/-- A session with one scope, which binds nothing. -/
def start (calls : Int) : Session := ⟨.new, #[0], .ofCalls calls⟩

/-- The scope of the machine at a place of the session. -/
def scopeAt (session : Session) (place : Nat) : ScopeId := session.places[place]?.getD 0

/-- A value from outside, with the places in it turned into scopes. -/
def settle (session : Session) (v : Value) : Value := v.relocate session.scopeAt

/-- What a name is bound to, as seen from a scope of the session. -/
def find? (session : Session) (scope : Nat) (name : String) : Option Value :=
  session.machine.scopes.find? (session.scopeAt scope) name

/-- Replies with the result of a computation on the machine. -/
def perform (session : Session) (body : Eval Value) : Reply × Session :=
  let (result, m) := body session.machine
  (.ofResult (result.mapError .fault), { session with machine := m })

def opening (session : Session) (grow : Scopes → Scopes) : Reply × Session :=
  let m := session.machine
  (.place session.places.size,
    { session with
      machine := { m with scopes := grow m.scopes }
      places := session.places.push m.scopes.size })

def step (session : Session) : Command → Reply × Session
  | .run scope text =>
    let (result, m) := session.machine.runText session.limits (session.scopeAt scope) text
    (.ofResult result, { session with machine := m })
  | .statements scope text =>
    match parse text with
    | .error e => (.error (.parse e), session)
    | .ok p =>
      session.perform (Eval.block session.limits.expression (session.scopeAt scope) p)
  | .expression scope tree =>
    session.perform (session.limits.expression (session.scopeAt scope) tree)
  | .apply callee args =>
    session.perform <| Eval.apply session.limits.expression session.limits.calls
      (session.settle callee) (args.map session.settle)
  | .applyNamed scope name args =>
    session.perform do
      let callee ← Eval.read (session.scopeAt scope) name
      Eval.apply session.limits.expression session.limits.calls callee (args.map session.settle)
  | .limit calls => (.nothing, { session with limits := .ofCalls calls })
  | .fresh => session.opening (·.push .empty)
  | .enclosed scope => session.opening (·.enclose (session.scopeAt scope) [])
  | .set scope name value =>
    let value := session.settle value
    let m := session.machine
    (.value value,
      { session with
        machine := { m with scopes := m.scopes.bind (session.scopeAt scope) name value } })
  | .get scope name => (.ofOption (session.find? scope name), session)
  | .contains scope name => (.truth (session.find? scope name).isSome, session)
  | .display scope => (.text (session.machine.scopes.display (session.scopeAt scope)), session)
  | .bindings scope =>
    (.bindings (session.machine.scopes.bindings (session.scopeAt scope)), session)

def names (session : Session) : List (List String) :=
  session.places.toList.map session.machine.scopes.names

end Session

/-- A reply, and what can be seen of the session behind it. -/
structure Record where
  reply : Reply
  callDepth : Nat
  names : List (List String)

def Session.records (session : Session) : List Command → List Record
  | [] => []
  | command :: rest =>
    let (reply, session) := session.step command
    ⟨reply, session.machine.callDepth, session.names⟩ :: session.records rest

end Treewalk
