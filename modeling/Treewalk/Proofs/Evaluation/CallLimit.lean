/-
  Treewalk/Proofs/Evaluation/CallLimit.lean
  =========================================
  **The limit on calls is an exact threshold.**  If a program ends for another
  reason than its limit, then with any other limit it does the same or fails
  for that limit, and which of the two is decided by the greatest number of
  calls that were under way.

  A limit below zero lets no call begin, as the limit zero does, so a program
  that makes no call does not notice it: the threshold is one for programs in
  which a call begins.
-/
import Treewalk.Proofs.Evaluation.Allowance

namespace Treewalk

/-! ### Calls are given back -/

/-- However it ends, the computation leaves as many calls under way as there were. -/
def Steady {α : Type} (c : Eval α) : Prop := ∀ m, (c m).2.callDepth = m.callDepth

theorem Steady.bind {α β : Type} {c : Eval α} {next : α → Eval β} (h : Steady c)
    (hnext : ∀ a, Steady (next a)) : Steady (c >>= next) := by
  intro m
  have hfirst := h m
  rw [Eval.bind_apply]
  rcases hc : c m with ⟨f | a, m'⟩ <;> rw [hc] at hfirst
  · exact hfirst
  · exact (hnext a m').trans hfirst

theorem Steady.withinCall {α : Type} {c : Eval α} (h : Steady c) : Steady (Eval.withinCall c) := by
  intro m
  have hbody := h { m with callDepth := m.callDepth + 1 }
  exact congrArg (· - 1) hbody

theorem Steady.congruence (limit : Int) : Congruence limit limit fun _ c => Steady c where
  ordinary hc m := (hc m).1
  bind := .bind
  call {captured b _ c} hc := by
    intro m
    rw [Eval.call_apply]
    split
    · rfl
    · exact ((hc _).withinCall.bind fun _ _ => rfl) _

theorem steady_expression (limit : Int) (allowance : Nat) (s : ScopeId) (e : Expr) :
    Steady (Eval.expression limit allowance s e) := by
  induction allowance generalizing s e with
  | zero => exact fun _ => rfl
  | succ allowance ih =>
    exact @Congruence.step _ _ _ (Steady.congruence limit) (Gauged.expression limit allowance 0) _
      ih s e

theorem steady_block (limit : Int) (allowance : Nat) (s : ScopeId) (body : Block) :
    Steady (Eval.block (Eval.expression limit allowance) s body) :=
  @Congruence.block _ _ _ (Steady.congruence limit) (Gauged.expression limit allowance 0) _
    (steady_expression limit allowance) s body

theorem steady_apply (limit : Int) (allowance : Nat) (f : Value) (args : List Value) :
    Steady (Eval.apply (Eval.expression limit allowance) limit f args) :=
  @Congruence.apply _ _ _ (Steady.congruence limit) (Gauged.expression limit allowance 0) _
    (steady_expression limit allowance) f args

/-! ### Runs with two limits -/

/-- With the limit `limit'`, a run does the same as the gauged one as long as the gauge of calls
    does not exceed this limit, and fails for it otherwise. -/
def Meets {α : Type} (limit' : Int) (g : Gauged α) (c : Eval α) (σ : Gauge) : Prop :=
  (g σ).2.calls ≤ limit'.toNat ∧ c σ.machine = ((g σ).1, (g σ).2.machine) ∨
    limit'.toNat < (g σ).2.calls ∧ (c σ.machine).1 = .error (.callsTooDeep limit')

/-- The gauge of calls is not set back, and if it was within `limit'`, a run that does not fail
    for `limit` is met. -/
def ThresholdAt {α : Type} (limit limit' : Int) (g : Gauged α) (c : Eval α) (σ : Gauge) : Prop :=
  σ.calls ≤ (g σ).2.calls ∧
    (σ.calls ≤ limit'.toNat → (g σ).1 ≠ .error (.callsTooDeep limit) → Meets limit' g c σ)

namespace ThresholdAt

variable {limit limit' : Int} {α β : Type}

theorem lift (c : Eval α) (σ : Gauge) : ThresholdAt limit limit' (Gauged.lift c) c σ :=
  ⟨Nat.le_refl _, fun hσ _ => .inl ⟨hσ, rfl⟩⟩

theorem bind {g : Gauged α} {c : Eval α} {next : α → Gauged β} {next' : α → Eval β} {σ : Gauge}
    (h : ThresholdAt limit limit' g c σ)
    (hnext : ∀ a σ, ThresholdAt limit limit' (next a) (next' a) σ) :
    ThresholdAt limit limit' (g >>= next) (c >>= next') σ := by
  obtain ⟨hgrow, hmeets⟩ := h
  unfold ThresholdAt Meets
  unfold Meets at hmeets
  rw [Eval.bind_apply, Eval.bind_apply]
  rcases hg : g σ with ⟨f | a, σ'⟩ <;> rw [hg] at hgrow hmeets
  · refine ⟨hgrow, fun hσ hf => ?_⟩
    rcases hmeets hσ (fun heq => hf (by cases heq; rfl)) with ⟨hle, hc⟩ | ⟨hlt, hc⟩
    · exact .inl ⟨hle, by rw [hc]⟩
    · rcases hm : c σ.machine with ⟨result, m⟩
      rw [hm] at hc
      cases hc
      exact .inr ⟨hlt, rfl⟩
  · obtain ⟨hgrow', hmeets'⟩ := hnext a σ'
    refine ⟨Nat.le_trans hgrow hgrow', fun hσ hr => ?_⟩
    rcases hmeets hσ nofun with ⟨hle, hc⟩ | ⟨hlt, hc⟩
    · rw [hc]
      exact hmeets' hle hr
    -- The limit was exceeded before, and what comes after does not set the gauge back.
    · rcases hm : c σ.machine with ⟨result, m⟩
      rw [hm] at hc
      cases hc
      exact .inr ⟨Nat.lt_of_lt_of_le hlt hgrow', rfl⟩

theorem endingCalls {g : Gauged α} {c : Eval α} {σ : Gauge} (h : ThresholdAt limit limit' g c σ) :
    ThresholdAt limit limit' (Gauged.endingCalls g) (Eval.endingCalls c) σ := by
  obtain ⟨hgrow, hmeets⟩ := h
  refine ⟨hgrow, fun hσ hr => ?_⟩
  rcases hmeets hσ hr with ⟨hle, hc⟩ | hfail
  · refine .inl ⟨hle, ?_⟩
    simp only [Eval.endingCalls]
    rw [hc]
    rfl
  · exact .inr hfail

/-- The gauge counts the call itself. -/
theorem calls_withinCall {g : Gauged α} {c : Eval α}
    (h : ∀ σ, ThresholdAt limit limit' g c σ) (σ : Gauge) :
    max σ.calls (σ.machine.callDepth + 1) ≤ (Gauged.withinCall g σ).2.calls := by
  let m := { σ.machine with callDepth := σ.machine.callDepth + 1 }
  exact (h ⟨m, max σ.calls m.callDepth, σ.nesting⟩).1

/-- A call that `limit'` lets begin. -/
theorem withinCall {g : Gauged α} {c : Eval α} (h : ∀ σ, ThresholdAt limit limit' g c σ)
    {σ : Gauge} (hlimit : σ.machine.callDepth < limit'.toNat) :
    ThresholdAt limit limit' (Gauged.withinCall g) (Eval.withinCall c) σ := by
  let m := { σ.machine with callDepth := σ.machine.callDepth + 1 }
  obtain ⟨-, hmeets⟩ := h ⟨m, max σ.calls m.callDepth, σ.nesting⟩
  refine ⟨Nat.le_trans (Nat.le_max_left _ _) (calls_withinCall h σ), fun hσ hr => ?_⟩
  rcases hmeets (Nat.max_le.mpr ⟨hσ, hlimit⟩) hr with ⟨hle, hc⟩ | hfail
  · refine .inl ⟨hle, ?_⟩
    simp only [Eval.withinCall]
    rw [hc]
    rfl
  · exact .inr hfail

theorem call {captured : ScopeId} {b : Bindings} {g : ScopeId → Gauged Value}
    {c : ScopeId → Eval Value} (h : ∀ s σ, ThresholdAt limit limit' (g s) (c s) σ) (σ : Gauge) :
    ThresholdAt limit limit' (Gauged.call limit captured b g) (Eval.call limit' captured b c)
      σ := by
  unfold ThresholdAt Meets
  rw [Gauged.call_apply, Eval.call_apply]
  by_cases hdeep : limit ≤ σ.machine.callDepth
  · rw [if_pos hdeep]
    exact ⟨Nat.le_refl _, fun _ hr => absurd rfl hr⟩
  rw [if_neg hdeep]
  let σ' : Gauge := { σ with machine.scopes := σ.machine.scopes.enclose captured b }
  have hbody := h σ.machine.scopes.size
  by_cases hdeep' : limit' ≤ σ.machine.callDepth
  -- The call begins with `limit` alone, and then the gauge is past the other limit.
  · rw [if_pos hdeep']
    have hpast := calls_withinCall hbody σ'
    have hsnd := Gauged.unwrap_snd (Gauged.withinCall (g σ.machine.scopes.size)) σ'
    rw [← hsnd] at hpast
    refine ⟨Nat.le_trans (Nat.le_max_left _ _) hpast, fun _ _ => .inr ⟨?_, rfl⟩⟩
    have hover : limit'.toNat ≤ σ.machine.callDepth := Int.toNat_le.mpr hdeep'
    exact Nat.lt_of_le_of_lt hover (Nat.le_trans (Nat.le_max_right _ _) hpast)
  · rw [if_neg hdeep']
    have hlimit : σ'.machine.callDepth < limit'.toNat := Int.lt_toNat.mpr (Int.not_le.mp hdeep')
    exact (withinCall hbody hlimit).bind fun v => lift (pure v.unwrap)

theorem congruence (limit limit' : Int) :
    Congruence limit limit' fun g c => ∀ σ, ThresholdAt limit limit' g c σ where
  ordinary _ := lift _
  bind h hnext σ := (h σ).bind hnext
  call := call

end ThresholdAt

/-! ### Whole programs -/

theorem expression_threshold (limit limit' : Int) (allowance outer : Nat) (s : ScopeId) (e : Expr)
    (σ : Gauge) :
    ThresholdAt limit limit' (Gauged.expression limit allowance outer s e)
      (Eval.expression limit' allowance s e) σ := by
  induction allowance generalizing outer s e σ with
  | zero =>
    exact ThresholdAt.lift (throw .nestedTooDeep)
      { σ with nesting := max σ.nesting (outer + 1) }
  | succ allowance ih =>
    exact (ThresholdAt.congruence limit limit').step (ih (outer + 1)) s e
      { σ with nesting := max σ.nesting (outer + 1) }

theorem program_threshold (limit limit' : Int) (allowance : Nat) (s : ScopeId) (p : Program)
    (σ : Gauge) :
    ThresholdAt limit limit' (Gauged.program limit allowance s p)
      (Eval.program limit' allowance s p) σ := by
  have hblock := (ThresholdAt.congruence limit limit').block
    (expression_threshold limit limit' allowance 0) s p σ
  exact hblock.endingCalls.bind fun v => ThresholdAt.lift (pure v.unwrap)

/-- The greatest number of calls that are under way at one time when a program is run. -/
def callPeak (limit : Int) (allowance : Nat) (s : ScopeId) (p : Program) (m : Machine) : Nat :=
  (Gauged.program limit allowance s p (.start m)).2.calls

/-- A limit that the greatest number of calls does not exceed is not noticed, and any other
    is. -/
theorem program_meets {limit : Int} (limit' : Int) {allowance : Nat} {s : ScopeId} {p : Program}
    {m : Machine} (hfresh : m.callDepth = 0)
    (hends : (Eval.program limit allowance s p m).1 ≠ .error (.callsTooDeep limit)) :
    callPeak limit allowance s p m ≤ limit'.toNat ∧
        Eval.program limit' allowance s p m = Eval.program limit allowance s p m ∨
      limit'.toNat < callPeak limit allowance s p m ∧
        (Eval.program limit' allowance s p m).1 = .error (.callsTooDeep limit') := by
  have hgauged : Eval.program limit allowance s p m = _ :=
    gauged_program limit allowance s p (.start m)
  have hstart : (Gauge.start m).calls ≤ limit'.toNat := by
    show m.callDepth ≤ _
    omega
  rw [hgauged] at hends ⊢
  exact (program_threshold limit limit' allowance s p (.start m)).2 hstart hends

/-- Of a program that does not fail for its limit, the greatest number of calls that are under
    way is an exact threshold for all limits.  A limit that is not below it changes neither the
    result nor any binding, and a limit below it makes the program fail for this limit; either
    way, unless one of the two runs has less allowance than the other and uses it up.

    If no call begins, the program is within all limits, be they below zero. -/
theorem call_limit_exact (limit limit' : Int) (allowance allowance' : Nat) (s : ScopeId)
    (p : Program) (m : Machine) (hfresh : m.callDepth = 0)
    (hends : (Eval.program limit allowance s p m).1 ≠ .error (.callsTooDeep limit)) :
    Eval.program limit allowance s p m =
      ((Gauged.program limit allowance s p (.start m)).1,
        (Gauged.program limit allowance s p (.start m)).2.machine) ∧
    (callPeak limit allowance s p m ≤ limit' ∨ callPeak limit allowance s p m = 0 →
      Eval.program limit' allowance' s p m = Eval.program limit allowance s p m ∨
        UsedUp allowance' allowance (Eval.program limit' allowance' s p m).1
          (Eval.program limit allowance s p m).1) ∧
    (limit' < callPeak limit allowance s p m → callPeak limit allowance s p m ≠ 0 →
      (∃ fault, (Eval.program limit' allowance' s p m).1 = .error fault ∧
        fault.message =
          "stack overflow: maximum call depth of " ++ toString limit' ++ " exceeded") ∨
      allowance' < allowance ∧
        (Eval.program limit' allowance' s p m).1 = .error .nestedTooDeep) := by
  have hallowance := program_allowance limit' allowance' allowance s p m
  have hmeets := program_meets limit' hfresh hends
  refine ⟨gauged_program limit allowance s p (.start m), fun hpeak => ?_, fun hpeak hcalls => ?_⟩
  · rcases hmeets with ⟨-, hsame⟩ | ⟨hpast, -⟩
    · rwa [hsame] at hallowance
    · omega
  · rcases hmeets with ⟨hwithin, -⟩ | ⟨-, hfails⟩
    · omega
    rw [hfails] at hallowance
    rcases hallowance with hsame | ⟨hless, hdeep⟩ | ⟨-, hdeep⟩
    · rw [hsame]
      exact .inl ⟨_, hfails, rfl⟩
    · exact .inr ⟨hless, hdeep⟩
    · cases hdeep

/-- One call begins in this program, so the limit zero is too low and no other is. -/
theorem call_limit_exact_once :
    (Eval.program 1 5 0 [.expr (.call (.fn [] [.expr (.int 7)]) [])] .new).1 = .ok (.int 7) ∧
      callPeak 1 5 0 [.expr (.call (.fn [] [.expr (.int 7)]) [])] .new = 1 ∧
      ∃ fault, (Eval.program 0 5 0 [.expr (.call (.fn [] [.expr (.int 7)]) [])] .new).1 =
          .error fault ∧
        fault.message = "stack overflow: maximum call depth of 0 exceeded" := by
  have hexact := call_limit_exact 1 0 5 5 0 [.expr (.call (.fn [] [.expr (.int 7)]) [])] .new rfl
    nofun
  refine ⟨rfl, rfl, ?_⟩
  rcases hexact.2.2 (by decide) (by decide) with hfails | ⟨hless, -⟩
  · exact hfails
  · exact absurd hless (Nat.lt_irrefl _)

/-- A program in which no call begins does not fail for a limit below zero, although the number
    of its calls is past that limit. -/
theorem call_limit_negative :
    ¬ ∀ (limit limit' : Int) (allowance : Nat) (s : ScopeId) (p : Program) (m : Machine),
      m.callDepth = 0 →
      (Eval.program limit allowance s p m).1 ≠ .error (.callsTooDeep limit) →
      limit' < callPeak limit allowance s p m →
      (Eval.program limit' allowance s p m).1 = .error (.callsTooDeep limit') := by
  intro hclaim
  have hfails := hclaim 0 (-1) 5 0 [.expr (.int 1)] .new rfl nofun (by decide)
  cases hfails

end Treewalk
