/-
  Treewalk/Proofs/Evaluation/Reach.lean
  =====================================
  **What can be reached from a scope**: the scopes around it, those held by
  the functions that are bound in it, and so on.

  An evaluation stays within the scopes that it can reach and those that it
  opens.  These make up a closed set: it never has to grow, because it may
  hold from the beginning all scopes that are not opened yet.
-/
import Treewalk.Proofs.Evaluation.Plain

namespace Treewalk

/-! ### Reaching -/

/-- The scope that a value holds, if it is a function, be it on its way out of a call. -/
def Value.scope? : Value → Option ScopeId
  | fn _ _ s => some s
  | returned v => v.scope?
  | _ => none

/-- The scopes that can be reached from those in `start`. -/
inductive Reachable (scopes : Scopes) (start : ScopeId → Prop) : ScopeId → Prop
  | start {s : ScopeId} : start s → Reachable scopes start s
  | around {s t : ScopeId} : Reachable scopes start s → t ∈ scopes.chain s →
      Reachable scopes start t
  | bound {s t : ScopeId} {x : String} {v : Value} : Reachable scopes start s →
      (scopes.bindings s).lookup x = some v → v.scope? = some t → Reachable scopes start t

/-! ### Bindings to values with a property -/

namespace Bindings

variable {P : Value → Prop} {b : Bindings}

/-- Every value that can be looked up has the property. -/
def All (P : Value → Prop) (b : Bindings) : Prop := ∀ x v, b.lookup x = some v → P v

theorem All.set (hb : b.All P) (x : String) {v : Value} (hv : P v) :
    Bindings.All P (b.set x v) := by
  intro y w hw
  rw [lookup_set] at hw
  split at hw
  · cases hw
    exact hv
  · exact hb y w hw

theorem all_parameters (names : List String) {values : List Value}
    (hvalues : ∀ v ∈ values, P v) : Bindings.All P (Eval.parameters names values) :=
  fun _ _ h => (each_parameters names hvalues).lookup h

end Bindings

/-! ### Closed sets of scopes -/

/-- Nothing but `G` is reached from `G`, and every value that is bound there has the property.
    All scopes that are not opened yet are in `G`. -/
structure Scopes.Closed (G : ScopeId → Prop) (P : Value → Prop) (scopes : Scopes) : Prop where
  unopened : ∀ t, scopes.size ≤ t → G t
  chain : ∀ t, G t → ∀ u ∈ scopes.chain t, G u
  bindings : ∀ t, G t → (scopes.bindings t).All P

namespace Scopes.Closed

variable {G : ScopeId → Prop} {P : Value → Prop} {scopes : Scopes}

theorem find? (h : scopes.Closed G P) {s : ScopeId} (hs : G s) {x : String} {v : Value}
    (hv : scopes.find? s x = some v) : P v := by
  obtain ⟨t, ht, hlookup⟩ := List.exists_of_findSome?_eq_some hv
  exact h.bindings t (h.chain s hs t ht) x v hlookup

theorem bind (h : scopes.Closed G P) (s : ScopeId) (x : String) {v : Value} (hv : P v) :
    Scopes.Closed G P (scopes.bind s x v) := by
  refine ⟨fun t ht => h.unopened t (Scopes.size_bind scopes s x v ▸ ht), ?_, ?_⟩
  · intro t ht
    rw [Scopes.chain_bind]
    exact h.chain t ht
  · intro t ht
    rw [Scopes.bindings_bind]
    split
    · exact (h.bindings t ht).set x hv
    · exact h.bindings t ht

theorem enclose (h : scopes.Closed G P) {s : ScopeId} (hs : G s) {b : Bindings}
    (hb : b.All P) : Scopes.Closed G P (scopes.enclose s b) := by
  refine ⟨fun t ht => ?_, ?_, ?_⟩
  · rw [Scopes.size_enclose] at ht
    exact h.unopened t (Nat.le_of_succ_le ht)
  · intro t ht
    rw [Scopes.chain_enclose]
    split
    · exact List.forall_mem_cons.mpr ⟨h.unopened _ (Nat.le_refl _), h.chain s hs⟩
    · exact h.chain t ht
  · intro t ht
    rw [Scopes.bindings_enclose]
    split
    · exact hb
    · exact h.bindings t ht

end Scopes.Closed

end Treewalk
