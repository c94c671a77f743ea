/-
  Treewalk/Evaluation/Machine.lean
  ================================
  **Machines**: what an evaluation reads and changes, namely all scopes and
  the number of calls that are under way.

  A computation on a machine ends with a value or a fault.  The machine that
  it leaves is known in both cases: a fault undoes nothing.
-/
import Treewalk.Scope.Basic
import Treewalk.Value.Fault

namespace Treewalk

structure Machine where
  scopes : Scopes
  /-- How many calls are under way. -/
  callDepth : Nat
  deriving DecidableEq

/-- A machine with one scope, which binds nothing. -/
def Machine.new : Machine := ⟨#[.empty], 0⟩

/-- A computation that changes the machine, and may fail. -/
abbrev Eval := ExceptT Fault (StateM Machine)

namespace Eval

variable {α : Type}

def ofResult (result : Except Fault α) : Eval α := fun m => (result, m)

/-- The value of a name, as seen from a scope. -/
def read (s : ScopeId) (name : String) : Eval Value := fun m =>
  match m.scopes.find? s name with
  | some v => (.ok v, m)
  | none => (.error (.unbound name), m)

def bind (s : ScopeId) (name : String) (value : Value) : Eval Unit := fun m =>
  (.ok (), { m with scopes := m.scopes.bind s name value })

def enclose (s : ScopeId) (bindings : Bindings) : Eval ScopeId := fun m =>
  (.ok m.scopes.size, { m with scopes := m.scopes.enclose s bindings })

def callDepth : Eval Nat := fun m => (.ok m.callDepth, m)

/-- A computation inside one call more.  The call is over when the computation ends, be it
    with a value or a fault. -/
def withinCall (body : Eval α) : Eval α := fun m =>
  let (result, m) := body { m with callDepth := m.callDepth + 1 }
  (result, { m with callDepth := m.callDepth - 1 })

/-- A computation after which no call is under way. -/
def endingCalls (body : Eval α) : Eval α := fun m =>
  let (result, m) := body m
  (result, { m with callDepth := 0 })

/-- Carries on with a value, unless the value is on its way out of a call or program. -/
def unlessReturned (v : Value) (next : Value → Eval Value) : Eval Value :=
  match v with
  | .returned _ => pure v
  | v => next v

/-! ### Sequences of computations -/

/-- A computation goes on with the state that the one before it left, unless that one ended
    early, be it with a fault or for another reason. -/
theorem bind_apply {σ ε β : Type} (c : ExceptT ε (StateM σ) α)
    (next : α → ExceptT ε (StateM σ) β) (m : σ) :
    (c >>= next) m =
      match c m with
      | (.ok a, m) => next a m
      | (.error x, m) => (.error x, m) := by
  show (StateT.bind c (ExceptT.bindCont next) : StateM σ (Except ε β)) m = _
  simp only [StateT.bind]
  cases h : c m with
  | mk result m' => cases result <;> rfl

theorem pure_apply (a : α) (m : Machine) : (pure a : Eval α) m = (.ok a, m) := rfl

end Eval

end Treewalk
