/-
  Treewalk/Scope/Basic.lean
  =========================
  **Scopes**: names bound to values, and the scopes around.

  A scope lists the scopes around it, the nearest first, so what can be seen
  from it is found by walking a list.  A name is written in one scope only: it
  may hide the same name further out but never changes it.
-/
import Treewalk.Value.Basic

namespace Treewalk

/-- The names bound in one scope, in the order in which they were first bound. -/
abbrev Bindings := List (String × Value)

namespace Bindings

/-- Binds a name: one that is bound already keeps its place. -/
def set (name : String) (value : Value) : Bindings → Bindings
  | [] => [(name, value)]
  | (x, v) :: rest => if x = name then (x, value) :: rest else (x, v) :: set name value rest

def names (b : Bindings) : List String := b.map (·.1)

def sorted (b : Bindings) : Bindings := b.mergeSort fun x y => decide (x.1 ≤ y.1)

theorem lookup_cons (x y : String) (v : Value) (b : Bindings) :
    List.lookup y ((x, v) :: b) = if y = x then some v else b.lookup y := by
  by_cases h : y = x
  · subst h
    simp
  · rw [List.lookup_cons, beq_false_of_ne h, if_neg h]

/-- Binding a name changes what this name is bound to, and nothing else. -/
theorem lookup_set (b : Bindings) (x y : String) (v : Value) :
    (b.set x v).lookup y = if y = x then some v else b.lookup y := by
  induction b with
  | nil => exact lookup_cons x y v []
  | cons p rest ih =>
    obtain ⟨z, w⟩ := p
    by_cases hz : z = x
    · subst hz
      simp only [set, if_true, lookup_cons]
      by_cases hy : y = z <;> simp [hy]
    · simp only [set, if_neg hz, lookup_cons, ih]
      by_cases hy : y = z
      · subst hy
        simp [hz]
      · simp [hy]

/-- Binding a name takes no name away, and adds at most this one, at the end. -/
theorem names_set (b : Bindings) (x : String) (v : Value) :
    (b.set x v).names = if x ∈ b.names then b.names else b.names ++ [x] := by
  induction b with
  | nil => rfl
  | cons p rest ih =>
    obtain ⟨z, w⟩ := p
    by_cases hz : z = x
    · simp [set, names, hz]
    · have hx : x ≠ z := Ne.symm hz
      simp only [names] at ih
      simp only [set, if_neg hz, names, List.map_cons, ih, List.mem_cons, hx, false_or]
      by_cases hmem : x ∈ rest.map (·.1) <;> simp [hmem]

end Bindings

structure Scope where
  bindings : Bindings
  /-- The scopes around, the nearest first. -/
  around : List ScopeId
  deriving DecidableEq

/-- A scope that binds nothing and has nothing around it. -/
def Scope.empty : Scope := ⟨[], []⟩

/-- All scopes that were ever opened. -/
abbrev Scopes := Array Scope

namespace Scopes

def bindings (scopes : Scopes) (s : ScopeId) : Bindings :=
  (scopes[s]?.getD .empty).bindings

/-- A scope and the scopes around it: those that can be seen from it, the nearest first. -/
def chain (scopes : Scopes) (s : ScopeId) : List ScopeId :=
  s :: (scopes[s]?.getD .empty).around

/-- The value of a name, from the nearest scope that binds it. -/
def find? (scopes : Scopes) (s : ScopeId) (name : String) : Option Value :=
  (scopes.chain s).findSome? fun t => (scopes.bindings t).lookup name

def bind (scopes : Scopes) (s : ScopeId) (name : String) (value : Value) : Scopes :=
  scopes.modify s fun scope => { scope with bindings := scope.bindings.set name value }

def enclose (scopes : Scopes) (s : ScopeId) (bindings : Bindings) : Scopes :=
  scopes.push ⟨bindings, scopes.chain s⟩

/-! ### What writing and opening leave alone -/

theorem size_bind (scopes : Scopes) (s : ScopeId) (name : String) (value : Value) :
    (scopes.bind s name value).size = scopes.size := by
  simp [bind]

theorem size_enclose (scopes : Scopes) (s : ScopeId) (b : Bindings) :
    (scopes.enclose s b).size = scopes.size + 1 := by
  simp [enclose]

theorem getElem?_bind (scopes : Scopes) (s t : ScopeId) (name : String) (value : Value) :
    (scopes.bind s name value)[t]? =
      if s = t then
        scopes[t]?.map fun scope => { scope with bindings := scope.bindings.set name value }
      else scopes[t]? :=
  Array.getElem?_modify

/-- A write changes the scope that it names, if there is such a scope. -/
theorem bindings_bind (scopes : Scopes) (s t : ScopeId) (name : String) (value : Value) :
    (scopes.bind s name value).bindings t =
      if s = t ∧ t < scopes.size then (scopes.bindings t).set name value
      else scopes.bindings t := by
  simp only [bindings, getElem?_bind]
  by_cases hs : s = t
  · by_cases ht : t < scopes.size
    · simp [hs, ht]
    · simp [hs, ht]
  · simp [hs]

/-- No write moves a scope. -/
theorem chain_bind (scopes : Scopes) (s t : ScopeId) (name : String) (value : Value) :
    (scopes.bind s name value).chain t = scopes.chain t := by
  simp only [chain, getElem?_bind]
  by_cases hs : s = t
  · cases h : scopes[t]? <;> simp [hs]
  · simp [hs]

/-- Opening a scope changes none that was open. -/
theorem getElem?_enclose (scopes : Scopes) (s t : ScopeId) (b : Bindings) (ht : t < scopes.size) :
    (scopes.enclose s b)[t]? = scopes[t]? := by
  rw [enclose, Array.getElem?_push, if_neg (Nat.ne_of_lt ht)]

theorem bindings_push (scopes : Scopes) (scope : Scope) (t : ScopeId) :
    Scopes.bindings (scopes.push scope) t =
      if t = scopes.size then scope.bindings else scopes.bindings t := by
  simp only [bindings, Array.getElem?_push]
  by_cases ht : t = scopes.size <;> simp [ht]

theorem chain_push (scopes : Scopes) (scope : Scope) (t : ScopeId) :
    Scopes.chain (scopes.push scope) t =
      if t = scopes.size then scopes.size :: scope.around else scopes.chain t := by
  simp only [chain, Array.getElem?_push]
  by_cases ht : t = scopes.size <;> simp [ht]

theorem bindings_enclose (scopes : Scopes) (s t : ScopeId) (b : Bindings) :
    (scopes.enclose s b).bindings t = if t = scopes.size then b else scopes.bindings t :=
  bindings_push scopes _ t

/-- The scope just opened sees what the one around it sees. -/
theorem chain_enclose (scopes : Scopes) (s t : ScopeId) (b : Bindings) :
    (scopes.enclose s b).chain t =
      if t = scopes.size then scopes.size :: scopes.chain s else scopes.chain t :=
  chain_push scopes _ t

end Scopes

end Treewalk
