/-
  Treewalk/Proofs/Evaluation/Allowance.lean
  =========================================
  **The allowance decides nothing but whether an evaluation is given up**, and
  the gauges decide nothing at all.

  Both follow from comparing a plain evaluation with a gauged one that has at
  least as much allowance: they do the same until the plain one gives up, which
  it cannot if it has as much.
-/
import Treewalk.Proofs.Evaluation.Gauge

namespace Treewalk

/-- The plain computation does what the gauged one does, or, where it may, gives up because
    expressions nest too deep. -/
def Follows {α : Type} (mayGiveUp : Prop) (g : Gauged α) (c : Eval α) : Prop :=
  ∀ σ, c σ.machine = ((g σ).1, (g σ).2.machine) ∨
    mayGiveUp ∧ (c σ.machine).1 = .error .nestedTooDeep

namespace Follows

variable {α β : Type} {P Q : Prop}

theorem mono {g : Gauged α} {c : Eval α} (h : Follows P g c) (hPQ : P → Q) : Follows Q g c :=
  fun σ => (h σ).imp_right fun ⟨hP, hc⟩ => ⟨hPQ hP, hc⟩

theorem lift (c : Eval α) : Follows P (Gauged.lift c) c := fun _ => .inl rfl

theorem bind {g : Gauged α} {c : Eval α} {next : α → Gauged β} {next' : α → Eval β}
    (h : Follows P g c) (hnext : ∀ a, Follows P (next a) (next' a)) :
    Follows P (g >>= next) (c >>= next') := by
  intro σ
  rw [Eval.bind_apply, Eval.bind_apply]
  rcases h σ with hsame | ⟨hP, hdeep⟩
  · rw [hsame]
    rcases g σ with ⟨f | a, σ'⟩
    · exact .inl rfl
    · exact hnext a σ'
  · rcases hc : c σ.machine with ⟨result, m⟩
    rw [hc] at hdeep
    cases hdeep
    exact .inr ⟨hP, rfl⟩

theorem withinCall {g : Gauged α} {c : Eval α} (h : Follows P g c) :
    Follows P (Gauged.withinCall g) (Eval.withinCall c) := by
  intro σ
  let m := { σ.machine with callDepth := σ.machine.callDepth + 1 }
  rcases h ⟨m, max σ.calls m.callDepth, σ.nesting⟩ with hsame | ⟨hP, hdeep⟩
  · left
    simp only [Eval.withinCall]
    rw [hsame]
    rfl
  · exact .inr ⟨hP, hdeep⟩

theorem endingCalls {g : Gauged α} {c : Eval α} (h : Follows P g c) :
    Follows P (Gauged.endingCalls g) (Eval.endingCalls c) := by
  intro σ
  rcases h σ with hsame | ⟨hP, hdeep⟩
  · left
    simp only [Eval.endingCalls]
    rw [hsame]
    rfl
  · exact .inr ⟨hP, hdeep⟩

theorem call {limit : Int} {captured : ScopeId} {b : Bindings} {g : ScopeId → Gauged Value}
    {c : ScopeId → Eval Value} (h : ∀ s, Follows P (g s) (c s)) :
    Follows P (Gauged.call limit captured b g) (Eval.call limit captured b c) := by
  refine (Follows.lift Eval.callDepth).bind fun depth => ?_
  split
  · exact .lift _
  · exact (Follows.lift _).bind fun s => (h s).withinCall.bind fun v => .lift _

theorem congruence (limit : Int) (P : Prop) : Congruence limit limit (Follows P) where
  ordinary _ := .lift _
  bind := .bind
  call := .call

end Follows

/-! ### Whole evaluations -/

theorem follows_expression (limit : Int) {allowance allowance' : Nat}
    (h : allowance ≤ allowance') (outer : Nat) (s : ScopeId) (e : Expr) :
    Follows (allowance < allowance') (Gauged.expression limit allowance' outer s e)
      (Eval.expression limit allowance s e) := by
  induction allowance generalizing allowance' outer s e with
  | zero =>
    intro σ
    cases allowance' with
    | zero => exact .inl rfl
    | succ allowance' => exact .inr ⟨Nat.succ_pos _, rfl⟩
  | succ allowance ih =>
    obtain ⟨allowance', rfl⟩ : ∃ n, allowance' = n + 1 := Nat.exists_eq_add_one.mpr (by omega)
    have hle : allowance ≤ allowance' := Nat.le_of_succ_le_succ h
    have hstep := (Follows.congruence limit (allowance < allowance')).step
      (ih hle (outer + 1)) s e
    intro σ
    exact hstep.mono Nat.succ_lt_succ { σ with nesting := max σ.nesting (outer + 1) }

theorem follows_program (limit : Int) {allowance allowance' : Nat}
    (h : allowance ≤ allowance') (s : ScopeId) (p : Program) :
    Follows (allowance < allowance') (Gauged.program limit allowance' s p)
      (Eval.program limit allowance s p) := by
  have hexpr := follows_expression limit h 0
  exact ((Follows.congruence limit _).block hexpr s p).endingCalls.bind fun v => .lift _

/-- The gauges change nothing. -/
theorem gauged_program (limit : Int) (allowance : Nat) (s : ScopeId) (p : Program) (σ : Gauge) :
    Eval.program limit allowance s p σ.machine =
      ((Gauged.program limit allowance s p σ).1,
        (Gauged.program limit allowance s p σ).2.machine) := by
  rcases follows_program limit (Nat.le_refl allowance) s p σ with hsame | ⟨hless, -⟩
  · exact hsame
  · exact absurd hless (Nat.lt_irrefl _)

/-! ### Two allowances -/

/-- Of two runs with allowances of their own, the one with the smaller allowance has used it
    up. -/
def UsedUp (allowance allowance' : Nat) (result result' : Except Fault Value) : Prop :=
  allowance < allowance' ∧ result = .error .nestedTooDeep ∨
    allowance' < allowance ∧ result' = .error .nestedTooDeep

/-- What `c` does with the smaller of two allowances is what it does with the greater, unless
    it gives up. -/
theorem same_or_usedUp {c : Nat → Eval Value}
    (h : ∀ {allowance allowance' : Nat}, allowance ≤ allowance' →
      ∃ g, Follows (allowance < allowance') g (c allowance) ∧ Follows False g (c allowance'))
    (allowance allowance' : Nat) (m : Machine) :
    c allowance m = c allowance' m ∨
      UsedUp allowance allowance' (c allowance m).1 (c allowance' m).1 := by
  have hone : ∀ {a a' : Nat}, a ≤ a' → c a m = c a' m ∨
      a < a' ∧ (c a m).1 = .error .nestedTooDeep := by
    intro a a' hle
    obtain ⟨g, hg, hg'⟩ := h hle
    rcases hg' (.start m) with hsame' | ⟨hfalse, -⟩
    · rcases hg (.start m) with hsame | hdeep
      · exact .inl (hsame.trans hsame'.symm)
      · exact .inr hdeep
    · exact hfalse.elim
  rcases Nat.le_total allowance allowance' with hle | hle
  · rcases hone hle with hsame | hdeep
    · exact .inl hsame
    · exact .inr (.inl hdeep)
  · rcases hone hle with hsame | hdeep
    · exact .inl hsame.symm
    · exact .inr (.inr hdeep)

theorem program_allowance (limit : Int) (allowance allowance' : Nat) (s : ScopeId) (p : Program)
    (m : Machine) :
    Eval.program limit allowance s p m = Eval.program limit allowance' s p m ∨
      UsedUp allowance allowance' (Eval.program limit allowance s p m).1
        (Eval.program limit allowance' s p m).1 := by
  refine same_or_usedUp (c := fun a => Eval.program limit a s p) ?_ allowance allowance' m
  intro a a' h
  exact ⟨_, follows_program limit h s p,
    (follows_program limit (Nat.le_refl a') s p).mono (Nat.lt_irrefl a')⟩

theorem apply_allowance (limit : Int) (allowance allowance' : Nat) (f : Value)
    (args : List Value) (m : Machine) :
    Eval.apply (Eval.expression limit allowance) limit f args m =
        Eval.apply (Eval.expression limit allowance') limit f args m ∨
      UsedUp allowance allowance' (Eval.apply (Eval.expression limit allowance) limit f args m).1
        (Eval.apply (Eval.expression limit allowance') limit f args m).1 := by
  refine same_or_usedUp (c := fun a => Eval.apply (Eval.expression limit a) limit f args) ?_
    allowance allowance' m
  intro a a' h
  have hfollows {b : Nat} (hle : b ≤ a') :=
    (Follows.congruence limit (b < a')).apply (follows_expression limit hle 0) f args
  exact ⟨_, hfollows h, (hfollows (Nat.le_refl a')).mono (Nat.lt_irrefl a')⟩

end Treewalk
