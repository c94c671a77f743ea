/-
  Treewalk/Proofs/Sessions/Course.lean
  ====================================
  **The course of a session.**  Between two steps no call is under way, however
  the steps before have ended, so all that happens in the course of a step is
  in order.

  Programs take back all calls in the end, but the steps that evaluate
  statements, an expression or a call do not; there it is each call that is
  taken back when it is over.
-/
import Treewalk.Proofs.Evaluation.CallLimit
import Treewalk.Proofs.Evaluation.Course
import Treewalk.Proofs.Sessions.Steps

namespace Treewalk.Session

variable {session : Session}

/-! ### Between steps -/

theorem callDepth_program (limit : Int) (allowance : Nat) (s : ScopeId) (p : Program)
    (m : Machine) : (Eval.program limit allowance s p m).2.callDepth = 0 := by
  rw [Eval.program, Eval.bind_apply, Eval.endingCalls]
  rcases Eval.block (Eval.expression limit allowance) s p m with ⟨f | v, m'⟩ <;> rfl

/-- No call is under way behind a step, if none was before. -/
theorem callDepth_take (h : session.machine.callDepth = 0) (step : Step) :
    (session.take step).2.machine.callDepth = 0 := by
  have hsteady {c : Eval Value} (hc : Steady c) :
      (session.perform c).2.machine.callDepth = 0 := (hc session.machine).trans h
  have hexpr : ∀ s e, Steady (session.limits.expression s e) := steady_expression _ _
  cases step with
  | program scope p => exact callDepth_program _ _ _ p _
  | sequence scope body => exact hsteady (steady_block _ _ _ body)
  | limits limits => exact h
  | command c =>
    cases c with
    | run scope text =>
      rw [take, step_run]
      cases parse text with
      | error e => exact h
      | ok p => exact callDepth_program _ _ _ p _
    | statements scope text =>
      rw [take, step]
      cases parse text with
      | error e => exact h
      | ok p => exact hsteady (steady_block _ _ _ p)
    | expression scope tree => exact hsteady (hexpr _ tree)
    | apply callee args => exact hsteady (steady_apply _ _ _ _)
    | applyNamed scope name args =>
      have hread : Steady (Eval.read (session.scopeAt scope) name) := by
        intro m
        unfold Eval.read
        split <;> rfl
      exact hsteady (hread.bind fun f => steady_apply _ _ f _)
    | limit | fresh | enclosed | set | get | contains | display | bindings => exact h

theorem callDepth_after (h : session.machine.callDepth = 0) (steps : List Step) :
    (session.after steps).machine.callDepth = 0 := by
  induction steps generalizing session with
  | nil => exact h
  | cons step steps ih => exact ih (callDepth_take h step)

/-! ### In the course of a step -/

variable (h : session.machine.callDepth = 0)

include h

theorem inOrder_observe {root : Part} {c : Traced Value}
    (hc : Leads root session.limits.calls (.settled [] 0) (.settled [] 0) c) :
    InOrder root session.limits.calls (session.observe c).moments := hc.inOrder h

/-- A text is run as the whole of its program. -/
theorem inOrder_observeText {text : String} {c : Program → Traced Value}
    (hc : ∀ p, Leads (.sequence p) session.limits.calls (.settled [] 0) (.settled [] 0) (c p)) :
    ∃ p, InOrder (.sequence p) session.limits.calls (session.observeText text c).moments := by
  unfold observeText
  cases parse text with
  | error e => exact ⟨[], trivial⟩
  | ok p => exact ⟨p, inOrder_observe h (hc p)⟩

/-- Whatever the step, all that happens in it is in order. -/
theorem inOrder_watch (step : Step) :
    ∃ root, InOrder root session.limits.calls (session.watch step).moments := by
  have hexpr (root : Part) : LeadsEval root session.limits.calls session.traced :=
    leads_expression _ _ _
  have happly (f : Value) (args : List Value) :
      ∃ root, InOrder root session.limits.calls
        (session.observe (Traced.apply session.traced session.limits.calls f args)).moments :=
    ⟨_, inOrder_observe h (leads_apply (hexpr _) f args .outermost)⟩
  cases step with
  | program scope p => exact ⟨_, inOrder_observe h (leads_program _ _ _ p)⟩
  | sequence scope body => exact ⟨_, inOrder_observe h (leads_block (hexpr _) _ .outermost)⟩
  | limits limits => exact ⟨.sequence [], trivial⟩
  | command c =>
    cases c with
    | run scope text =>
      obtain ⟨p, hp⟩ := inOrder_observeText h fun p => leads_program _ _ _ p
      exact ⟨_, hp⟩
    | statements scope text =>
      obtain ⟨p, hp⟩ := inOrder_observeText h fun p => leads_block (hexpr _) _ .outermost
      exact ⟨_, hp⟩
    | expression scope tree => exact ⟨_, inOrder_observe h (hexpr _ _ tree .outermost)⟩
    | apply callee args => exact happly _ _
    | applyNamed scope name args =>
      rw [watch, observe, Eval.bind_apply, Traced.lift, Eval.read]
      simp only [Trace.start]
      cases session.machine.scopes.find? (session.scopeAt scope) name with
      | none => exact ⟨.sequence [], trivial⟩
      | some f => exact happly f _
    | limit | fresh | enclosed | set | get | contains | display | bindings =>
      exact ⟨.sequence [], trivial⟩

end Treewalk.Session
