/-
  Treewalk/Proofs/Evaluation/Plain.lean
  =====================================
  **Plain values and machines**: no wrapper of a returned value, and no name
  bound to one.  Operations on values make plain values only, which moreover
  are no functions, and binding plain values keeps a machine plain.

  That binding values with a property keeps all bound values to the property
  is true of every property, so it is shown of every one.
-/
import Treewalk.Evaluation.Basic
import Treewalk.Proofs.Evaluation.Operations

namespace Treewalk

/-! ### Bindings to values with a property -/

variable {P : Value → Prop}

/-- Every value that is bound has the property. -/
def Bindings.Each (P : Value → Prop) (b : Bindings) : Prop := ∀ p ∈ b, P p.2

/-- In all scopes, every value that is bound has the property. -/
def Scopes.Each (P : Value → Prop) (scopes : Scopes) : Prop :=
  ∀ scope ∈ scopes, Bindings.Each P scope.bindings

theorem Bindings.Each.mono {Q : Value → Prop} {b : Bindings} (hb : b.Each P)
    (hPQ : ∀ v, P v → Q v) : b.Each Q :=
  fun p hp => hPQ p.2 (hb p hp)

theorem Bindings.Each.set {b : Bindings} (hb : b.Each P) (x : String) {v : Value} (hv : P v) :
    Bindings.Each P (b.set x v) := by
  induction b with
  | nil => simpa [Bindings.Each, Bindings.set] using hv
  | cons p rest ih =>
    obtain ⟨y, w⟩ := p
    obtain ⟨hw, hrest⟩ := List.forall_mem_cons.mp hb
    by_cases hy : y = x
    · simp only [Bindings.set, if_pos hy]
      exact List.forall_mem_cons.mpr ⟨hv, hrest⟩
    · simp only [Bindings.set, if_neg hy]
      exact List.forall_mem_cons.mpr ⟨hw, ih hrest⟩

theorem Bindings.Each.lookup {b : Bindings} (hb : b.Each P) {x : String} {v : Value}
    (h : b.lookup x = some v) : P v := by
  obtain ⟨before, after, hsplit, -⟩ := List.lookup_eq_some_iff.mp h
  exact hb (x, v) (by simp [hsplit])

theorem Bindings.each_parameters (names : List String) {values : List Value}
    (hvalues : ∀ v ∈ values, P v) : Bindings.Each P (Eval.parameters names values) := by
  have hpairs : ∀ p ∈ names.zip values, P p.2 := fun p hp => hvalues p.2 (List.of_mem_zip hp).2
  have hempty : Bindings.Each P [] := nofun
  unfold Eval.parameters
  generalize names.zip values = pairs at hpairs ⊢
  generalize ([] : Bindings) = b at hempty ⊢
  induction pairs generalizing b with
  | nil => exact hempty
  | cons p pairs ih =>
    obtain ⟨hp, hpairs⟩ := List.forall_mem_cons.mp hpairs
    exact ih hpairs _ (hempty.set p.1 hp)

namespace Scopes.Each

theorem new : Scopes.Each P Machine.new.scopes := by
  intro scope hscope
  obtain rfl : scope = .empty := by simpa [Machine.new] using hscope
  nofun

variable {scopes : Scopes} (h : scopes.Each P)

include h

theorem mono {Q : Value → Prop} (hPQ : ∀ v, P v → Q v) : scopes.Each Q :=
  fun scope hscope => (h scope hscope).mono hPQ

theorem bindings (s : ScopeId) : Bindings.Each P (scopes.bindings s) := by
  unfold Scopes.bindings
  cases hs : scopes[s]? with
  | none => nofun
  | some scope => exact h scope (Array.mem_of_getElem? hs)

theorem bind (s : ScopeId) (x : String) {v : Value} (hv : P v) :
    Scopes.Each P (scopes.bind s x v) := by
  intro scope hscope
  obtain ⟨t, ht⟩ := Array.mem_iff_getElem?.mp hscope
  rw [Scopes.getElem?_bind] at ht
  split at ht
  · obtain ⟨old, hold, rfl⟩ := Option.map_eq_some_iff.mp ht
    exact (h old (Array.mem_of_getElem? hold)).set x hv
  · exact h scope (Array.mem_of_getElem? ht)

theorem push {scope : Scope} (hscope : Bindings.Each P scope.bindings) :
    Scopes.Each P (scopes.push scope) := by
  intro other hother
  rcases Array.mem_push.mp hother with hold | rfl
  · exact h other hold
  · exact hscope

theorem enclose (s : ScopeId) {b : Bindings} (hb : b.Each P) :
    Scopes.Each P (scopes.enclose s b) := h.push hb

theorem find? {s : ScopeId} {x : String} {v : Value} (hv : scopes.find? s x = some v) : P v := by
  obtain ⟨t, -, ht⟩ := List.exists_of_findSome?_eq_some hv
  exact (h.bindings t).lookup ht

end Scopes.Each

/-! ### Plain values and machines -/

/-- The value is not wrapped. -/
def Value.Plain : Value → Prop
  | returned _ => False
  | _ => True

instance : (v : Value) → Decidable v.Plain
  | .returned _ => .isFalse id
  | .int _ | .bool _ | .null | .fn _ _ _ => .isTrue trivial

theorem Value.Plain.unwrap {v : Value} (h : v.Plain) : v.unwrap = v := by
  cases v <;> first | rfl | exact h.elim

theorem Value.Plain.unlessReturned {v : Value} (h : v.Plain) (next : Value → Eval Value) :
    Eval.unlessReturned v next = next v := by
  cases v <;> first | rfl | exact h.elim

def Bindings.Plain (b : Bindings) : Prop := ∀ p ∈ b, p.2.Plain

/-- No scope binds a wrapped value. -/
def Machine.Plain (m : Machine) : Prop := ∀ scope ∈ m.scopes, Bindings.Plain scope.bindings

theorem Machine.plain_iff (m : Machine) : m.Plain ↔ m.scopes.Each Value.Plain := Iff.rfl

theorem Machine.plain_new : Machine.new.Plain := Scopes.Each.new

theorem Bindings.plain_parameters (names : List String) {values : List Value}
    (hvalues : ∀ v ∈ values, v.Plain) : Bindings.Plain (Eval.parameters names values) :=
  Bindings.each_parameters names hvalues

namespace Machine.Plain

variable {m : Machine} (hm : m.Plain)

include hm

theorem bind (s : ScopeId) (x : String) {v : Value} (hv : v.Plain) :
    Machine.Plain { m with scopes := m.scopes.bind s x v } :=
  Scopes.Each.bind (m.plain_iff.mp hm) s x hv

theorem enclose (s : ScopeId) {b : Bindings} (hb : b.Plain) :
    Machine.Plain { m with scopes := m.scopes.enclose s b } :=
  Scopes.Each.enclose (m.plain_iff.mp hm) s hb

theorem find? {s : ScopeId} {x : String} {v : Value} (h : m.scopes.find? s x = some v) :
    v.Plain :=
  Scopes.Each.find? (m.plain_iff.mp hm) h

end Machine.Plain

/-! ### Sequences in two parts -/

/-- A sequence goes on behind its first part as if it began there, unless it has ended. -/
theorem Eval.statements_append (eval : ScopeId → Expr → Eval Value) (s : ScopeId)
    (body rest : List Stmt) {last : Value} (hlast : last.Plain) :
    Eval.statements eval s (body ++ rest) last =
      Eval.statements eval s body last >>= fun v =>
        Eval.unlessReturned v fun v => Eval.statements eval s rest v := by
  induction body generalizing last with
  | nil => rw [Eval.statements, pure_bind, hlast.unlessReturned, List.nil_append]
  | cons stmt body ih =>
    rw [List.cons_append, Eval.statements, Eval.statements, bind_assoc]
    congr 1
    funext v
    cases v with
    | returned v => rfl
    | int | bool | null | fn => exact ih trivial

/-! ### Operations -/

/-- The value is a number, a truth value or null. -/
def Value.Scalar : Value → Prop
  | int _ | bool _ | null => True
  | _ => False

theorem Value.Scalar.plain {v : Value} (h : v.Scalar) : v.Plain := by
  cases v <;> first | exact trivial | exact h.elim

theorem Value.Computed.scalar {v : Value} (h : v.Computed) : v.Scalar := by
  cases v <;> first | exact trivial | exact h.elim

theorem scalar_checked {x : Int} {v : Value} (h : checked x = .ok v) : v.Scalar :=
  (computed_checked h).scalar

theorem scalar_unary {op : String} {a v : Value} (h : a.unary op = .ok v) : v.Scalar :=
  (computed_unary h).scalar

theorem scalar_binary {op : String} {a b v : Value} (h : a.binary op b = .ok v) : v.Scalar :=
  (computed_binary h).scalar

end Treewalk
