/-
  Treewalk/Proofs/Evaluation/Correspondence.lean
  ==============================================
  **Machines that look the same from some scopes**: a pairing says which
  scope of the one machine goes with which of the other, and scopes that go
  together have the same around them and bind the same names, to values that
  differ in the scopes they hold only as the pairing says.

  Nothing is said of scopes without a partner.  Writing to two scopes that go
  together, and opening one inside each, keeps the machines alike; in the
  second case the two new scopes become partners.
-/
import Treewalk.Proofs.Evaluation.Plain
import Mathlib.Data.List.Forall2

namespace Treewalk

/-- Which scopes of one machine go with which scopes of another. -/
abbrev Pairing := ScopeId → ScopeId → Prop

namespace Pairing

/-- Scopes that go together go on doing so. -/
def Grows (R R' : Pairing) : Prop := ∀ s t, R s t → R' s t

theorem Grows.refl (R : Pairing) : R.Grows R := fun _ _ h => h

theorem Grows.trans {R R' R'' : Pairing} (h : R.Grows R') (h' : R'.Grows R'') : R.Grows R'' :=
  fun s t hst => h' s t (h s t hst)

/-- The pairing with one more pair. -/
def add (R : Pairing) (s t : ScopeId) : Pairing := fun u v => R u v ∨ u = s ∧ v = t

theorem grows_add (R : Pairing) (s t : ScopeId) : R.Grows (R.add s t) := fun _ _ => .inl

end Pairing

/-! ### Values -/

/-- The values differ in the scopes they hold only, and there as the pairing says. -/
inductive Value.Corresponds (R : Pairing) : Value → Value → Prop
  | int (n : Int) : Corresponds R (.int n) (.int n)
  | bool (b : Bool) : Corresponds R (.bool b) (.bool b)
  | null : Corresponds R .null .null
  | returned {v w : Value} : Corresponds R v w → Corresponds R (.returned v) (.returned w)
  | fn (params : List String) (body : Block) {s t : ScopeId} : R s t →
      Corresponds R (.fn params body s) (.fn params body t)

namespace Value.Corresponds

variable {R R' : Pairing} {v w : Value}

theorem mono (h : v.Corresponds R w) (hR : R.Grows R') : v.Corresponds R' w := by
  induction h with
  | int n => exact .int n
  | bool b => exact .bool b
  | null => exact .null
  | returned _ ih => exact .returned ih
  | fn params body hst => exact .fn params body (hR _ _ hst)

theorem ofScalar (h : v.Scalar) : v.Corresponds R v := by
  cases v with
  | int n => exact .int n
  | bool b => exact .bool b
  | null => exact .null
  | returned | fn => exact h.elim

theorem kind (h : v.Corresponds R w) : v.kind = w.kind := by
  cases h <;> rfl

/-- Scopes are not shown. -/
theorem display (h : v.Corresponds R w) : v.display = w.display := by
  induction h with
  | int | bool | null => rfl
  | returned _ ih => exact ih
  | fn => rfl

theorem same (h : v.Corresponds R w) : v.same w = true := by
  induction h with
  | int | bool | null => simp [Value.same]
  | returned _ ih => exact ih
  | fn params body => simp [Value.same]

theorem unwrap (h : v.Corresponds R w) : v.unwrap.Corresponds R w.unwrap := by
  cases h with
  | returned h => exact h
  | int n => exact .int n
  | bool b => exact .bool b
  | null => exact .null
  | fn params body hst => exact .fn params body hst

end Value.Corresponds

/-! ### Results -/

/-- Both results are values that are related, or both are faults that read the same. -/
inductive Alike {α β : Type} (P : α → β → Prop) : Except Fault α → Except Fault β → Prop
  | ok {a : α} {b : β} : P a b → Alike P (.ok a) (.ok b)
  | error {f f' : Fault} : f.message = f'.message → (f = .nestedTooDeep ↔ f' = .nestedTooDeep) →
      Alike P (.error f) (.error f')

namespace Alike

variable {R : Pairing} {v w v' w' : Value}

theorem fault {α β : Type} {P : α → β → Prop} (f : Fault) : Alike P (.error f) (.error f) :=
  .error rfl Iff.rfl

theorem mono {α β : Type} {P Q : α → β → Prop} {r : Except Fault α} {r' : Except Fault β}
    (h : Alike P r r') (hPQ : ∀ a b, P a b → Q a b) : Alike Q r r' := by
  cases h with
  | ok h => exact .ok (hPQ _ _ h)
  | error hmessage hdeep => exact .error hmessage hdeep

theorem nestedTooDeep {α β : Type} {P : α → β → Prop} {r : Except Fault α} {r' : Except Fault β}
    (h : Alike P r r') (hdeep : r' = .error .nestedTooDeep) : r = .error .nestedTooDeep := by
  cases h with
  | ok => cases hdeep
  | error _ hiff =>
    cases hdeep
    rw [hiff.mpr rfl]

theorem map {α β γ δ : Type} {P : α → β → Prop} {Q : γ → δ → Prop} {f : α → γ} {g : β → δ}
    {r : Except Fault α} {r' : Except Fault β} (h : Alike P r r')
    (hfg : ∀ a b, P a b → Q (f a) (g b)) : Alike Q (f <$> r) (g <$> r') := by
  cases h with
  | ok h => exact .ok (hfg _ _ h)
  | error hmessage hdeep => exact .error hmessage hdeep

theorem ofScalar {r : Except Fault Value} (h : ∀ v, r = .ok v → v.Scalar) :
    Alike (Value.Corresponds R) r r := by
  cases r with
  | error f => exact .fault f
  | ok v => exact .ok (.ofScalar (h v rfl))

theorem truth (h : v.Corresponds R w) : Alike Eq v.truth w.truth := by
  induction h with
  | int | bool | null => exact .ok rfl
  | returned _ ih => exact ih
  | fn params body => exact .error rfl ⟨nofun, nofun⟩

theorem unary (op : String) (h : v.Corresponds R w) :
    Alike (Value.Corresponds R) (v.unary op) (w.unary op) := by
  have hdisplay := h.display
  unfold Value.unary
  split
  · refine (truth h).map fun b c hbc => ?_
    rw [hbc]
    exact .bool _
  · cases h with
    | int n => exact .ofScalar fun _ => scalar_checked
    | bool | null => exact .fault _
    | returned =>
      exact .error (congrArg ("cannot use '-' operator on " ++ ·) hdisplay) ⟨nofun, nofun⟩
    | fn => exact .error rfl ⟨nofun, nofun⟩
  · rw [h.kind]
    exact .fault _

/-- A binary operator asks for no more than the kind of a function. -/
theorem binary (op : String) (h : v.Corresponds R w) (h' : v'.Corresponds R w') :
    v.binary op v' = w.binary op w' := by
  cases h <;> cases h' <;> rfl

end Alike

/-! ### Scopes -/

/-- The same names are bound, to values that correspond. -/
def Bindings.Corresponds (R : Pairing) (b b' : Bindings) : Prop :=
  ∀ x, Option.Rel (Value.Corresponds R) (b.lookup x) (b'.lookup x)

namespace Bindings.Corresponds

variable {R R' : Pairing} {b b' : Bindings}

theorem mono (h : b.Corresponds R b') (hR : R.Grows R') : b.Corresponds R' b' := by
  intro x
  have hx := h x
  generalize b.lookup x = v, b'.lookup x = w at hx
  cases hx with
  | none => exact .none
  | some hvw => exact .some (hvw.mono hR)

theorem set (h : b.Corresponds R b') (x : String) {v w : Value} (hvw : v.Corresponds R w) :
    Bindings.Corresponds R (b.set x v) (b'.set x w) := by
  intro y
  rw [lookup_set, lookup_set]
  split
  · exact .some hvw
  · exact h y

theorem parameters (names : List String) {vs ws : List Value}
    (h : List.Forall₂ (Value.Corresponds R) vs ws) :
    Bindings.Corresponds R (Eval.parameters names vs) (Eval.parameters names ws) := by
  suffices hfold : ∀ b b' : Bindings, b.Corresponds R b' → Bindings.Corresponds R
      ((names.zip vs).foldl (fun b p => b.set p.1 p.2) b)
      ((names.zip ws).foldl (fun b p => b.set p.1 p.2) b') from
    hfold [] [] fun _ => .none
  induction h generalizing names with
  | nil =>
    intro b b' hb
    rw [List.zip_nil_right]
    exact hb
  | cons hvw _ ih =>
    intro b b' hb
    cases names with
    | nil => exact hb
    | cons name names => exact ih names _ _ (hb.set name hvw)

end Bindings.Corresponds

/-- Scopes that go together look the same, as far as can be seen from them. -/
structure Scopes.Similar (R : Pairing) (scopes scopes' : Scopes) : Prop where
  opened {s t : ScopeId} : R s t → s < scopes.size ∧ t < scopes'.size
  /-- A scope goes with one scope only, on both sides. -/
  unique {s t s' t' : ScopeId} : R s t → R s' t' → (s = s' ↔ t = t')
  chain {s t : ScopeId} : R s t → List.Forall₂ R (scopes.chain s) (scopes'.chain t)
  bindings {s t : ScopeId} : R s t → (scopes.bindings s).Corresponds R (scopes'.bindings t)

namespace Scopes.Similar

variable {R : Pairing} {scopes scopes' : Scopes} {s t : ScopeId}

theorem find? (h : scopes.Similar R scopes') (hst : R s t) (x : String) :
    Option.Rel (Value.Corresponds R) (scopes.find? s x) (scopes'.find? t x) := by
  have hchain := h.chain hst
  unfold Scopes.find?
  generalize scopes.chain s = us, scopes'.chain t = vs at hchain
  induction hchain with
  | nil => exact .none
  | @cons u v us vs huv _ ih =>
    have hx := h.bindings huv x
    rw [List.findSome?_cons, List.findSome?_cons]
    generalize (scopes.bindings u).lookup x = found, (scopes'.bindings v).lookup x = found' at hx
    cases hx with
    | none => exact ih
    | some hvalue => exact .some hvalue

theorem bind (h : scopes.Similar R scopes') (hst : R s t) (x : String) {v w : Value}
    (hvw : v.Corresponds R w) : Scopes.Similar R (scopes.bind s x v) (scopes'.bind t x w) := by
  refine ⟨fun huv => ?_, h.unique, fun huv => ?_, fun {s' t'} huv => ?_⟩
  · rw [Scopes.size_bind, Scopes.size_bind]
    exact h.opened huv
  · rw [Scopes.chain_bind, Scopes.chain_bind]
    exact h.chain huv
  · obtain ⟨hs', ht'⟩ := h.opened huv
    rw [Scopes.bindings_bind, Scopes.bindings_bind]
    by_cases hs : s = s'
    · have ht : t = t' := (h.unique hst huv).mp hs
      rw [if_pos ⟨hs, hs'⟩, if_pos ⟨ht, ht'⟩]
      exact (h.bindings huv).set x hvw
    · have ht : t ≠ t' := fun ht => hs ((h.unique hst huv).mpr ht)
      rw [if_neg fun hand => hs hand.1, if_neg fun hand => ht hand.1]
      exact h.bindings huv

/-- The new scopes become partners. -/
theorem push (h : scopes.Similar R scopes') {scope scope' : Scope}
    (hb : scope.bindings.Corresponds R scope'.bindings)
    (haround : List.Forall₂ R scope.around scope'.around) :
    Scopes.Similar (R.add scopes.size scopes'.size) (scopes.push scope)
      (scopes'.push scope') := by
  have hgrows := R.grows_add scopes.size scopes'.size
  have hne {u v : ScopeId} (huv : R u v) : u ≠ scopes.size ∧ v ≠ scopes'.size := by
    obtain ⟨hu, hv⟩ := h.opened huv
    exact ⟨Nat.ne_of_lt hu, Nat.ne_of_lt hv⟩
  refine ⟨?_, ?_, ?_, ?_⟩
  · intro u v huv
    rw [Array.size_push, Array.size_push]
    rcases huv with huv | ⟨rfl, rfl⟩
    · obtain ⟨hu, hv⟩ := h.opened huv
      exact ⟨Nat.lt_succ_of_lt hu, Nat.lt_succ_of_lt hv⟩
    · exact ⟨Nat.lt_succ_self _, Nat.lt_succ_self _⟩
  · intro u v u' v' huv huv'
    rcases huv with huv | ⟨rfl, rfl⟩
    · rcases huv' with huv' | ⟨rfl, rfl⟩
      · exact h.unique huv huv'
      · exact iff_of_false (hne huv).1 (hne huv).2
    · rcases huv' with huv' | ⟨rfl, rfl⟩
      · exact iff_of_false (hne huv').1.symm (hne huv').2.symm
      · exact iff_of_true rfl rfl
  · intro u v huv
    rw [Scopes.chain_push, Scopes.chain_push]
    rcases huv with huv | ⟨rfl, rfl⟩
    · rw [if_neg (hne huv).1, if_neg (hne huv).2]
      exact (h.chain huv).imp hgrows
    · rw [if_pos rfl, if_pos rfl]
      exact .cons (.inr ⟨rfl, rfl⟩) (haround.imp hgrows)
  · intro u v huv
    rw [Scopes.bindings_push, Scopes.bindings_push]
    rcases huv with huv | ⟨rfl, rfl⟩
    · rw [if_neg (hne huv).1, if_neg (hne huv).2]
      exact (h.bindings huv).mono hgrows
    · rw [if_pos rfl, if_pos rfl]
      exact hb.mono hgrows

theorem enclose (h : scopes.Similar R scopes') (hst : R s t) {b b' : Bindings}
    (hb : b.Corresponds R b') :
    Scopes.Similar (R.add scopes.size scopes'.size) (scopes.enclose s b)
      (scopes'.enclose t b') :=
  h.push hb (h.chain hst)

end Scopes.Similar

/-- Machines on which the same calls are under way, with scopes that look the same. -/
structure Machine.Similar (R : Pairing) (m m' : Machine) : Prop where
  scopes : m.scopes.Similar R m'.scopes
  callDepth : m.callDepth = m'.callDepth

end Treewalk
