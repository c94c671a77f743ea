/-
  Treewalk/Proofs/Sessions/Wrapping.lean
  ======================================
  **Wrappers never leak.**  The wrapper of a returned value is made by a
  `return` and taken off by the call or program that it ends.  On its way it
  is seen by nobody: it is bound to no name, it is no operand, no callee and no
  argument, and there is never a wrapper in a wrapper.

  This holds in all sessions that are not given a wrapper from outside, of all
  trees and for all limits.
-/
import Treewalk.Proofs.Sessions.Steps

namespace Treewalk

/-! ### What is not wrapped -/

theorem Value.plain_iff_kind {v : Value} : v.Plain ↔ v.kind ≠ .returnValue := by
  cases v <;> simp [Plain, kind]

/-- The kinds of the values that a fault complains about. -/
def Fault.kinds : Fault → List ValueKind
  | typeMismatch l _ r => [l, r]
  | unknownBinary _ k | unknownUnary _ k | notFunction k => [k]
  | notNumber v | notTruth v => [v.kind]
  | _ => []

/-- What the step brings along is not wrapped. -/
def Step.Unwrapped : Step → Prop
  | command (.apply f args) => f.Plain ∧ ∀ v ∈ args, v.Plain
  | command (.applyNamed _ _ args) => ∀ v ∈ args, v.Plain
  | command (.set _ _ v) => v.Plain
  | _ => True

/-- Expressions and statements end with a value that is wrapped at most once.  All other values
    of events are not wrapped. -/
def Event.Unwrapped : Event → Prop
  | ends (.expression _) v | ends (.statement _) v | ends (.sequence _) v => v.unwrap.Plain
  | event => ∀ v ∈ event.values, v.Plain

/-- The reply is not wrapped, or at most once where this is allowed. -/
def Reply.Unwrapped (wraps : Bool) : Reply → Prop
  | value v => if wraps then v.unwrap.Plain else v.Plain
  | bindings b => b.Plain
  | error (.fault f) => .returnValue ∉ f.kinds
  | _ => True

/-! ### Being unwrapped is a discipline -/

theorem Value.Plain.relocate {v : Value} (h : v.Plain) (place : ScopeId → ScopeId) :
    (v.relocate place).Plain := by
  cases v <;> first | exact trivial | exact h.elim

/-- All trees, and all values but wrappers. -/
def Discipline.unwrapped : Discipline where
  expr _ := True
  stmt _ := True
  value := Value.Plain
  fault f := .returnValue ∉ f.kinds
  unary_part _ := trivial
  binary_parts _ := ⟨trivial, trivial⟩
  cond_parts _ := ⟨trivial, fun _ _ => trivial, fun _ _ _ _ => trivial⟩
  call_parts _ := ⟨trivial, fun _ _ => trivial⟩
  define_part _ := trivial
  ret_part _ := trivial
  expr_part _ := trivial
  block_parts _ _ _ := trivial
  plain h := h
  null := trivial
  int _ := trivial
  computed h := h.scalar.plain
  fn _ _ := trivial
  body _ _ _ := trivial
  unbound _ := by simp [Fault.kinds]
  truth _ h := by
    obtain ⟨params, body, s, rfl⟩ := fault_truth h
    simp [Fault.kinds, Value.kind]
  unary _ hv h := by
    have hkind := Value.plain_iff_kind.mp hv
    rcases fault_unary h with ⟨params, body, s, rfl⟩ | rfl | rfl | ⟨x, -, -, rfl⟩
    · simp [Fault.kinds, Value.kind]
    · simp [Fault.kinds, hkind.symm]
    · simp [Fault.kinds, hkind.symm]
    · simp [Fault.kinds]
  binary _ hv hw h := by
    have hleft := Value.plain_iff_kind.mp hv
    have hright := Value.plain_iff_kind.mp hw
    rcases fault_binary h with rfl | rfl | ⟨x, y, -, -, rfl | ⟨z, -, -, rfl⟩⟩
    · simp [Fault.kinds, hleft.symm]
    · simp [Fault.kinds, hleft.symm, hright.symm]
    · simp [Fault.kinds]
    · simp [Fault.kinds]
  callee hf := by simp [Fault.kinds, (Value.plain_iff_kind.mp hf).symm]
  arity _ _ := by simp [Fault.kinds]
  calls _ := by simp [Fault.kinds]
  nesting := by simp [Fault.kinds]

theorem Step.Unwrapped.given {step : Step} (h : step.Unwrapped) :
    Discipline.unwrapped.Given step := by
  cases step with
  | program | sequence => exact fun _ _ => trivial
  | limits => trivial
  | command c =>
    cases c with
    | run | statements => exact fun _ _ _ _ => trivial
    | apply f args => exact ⟨h.1.relocate, fun v hv => (h.2 v hv).relocate⟩
    | applyNamed scope name args => exact fun v hv => (h v hv).relocate
    | set scope name v => exact Value.Plain.relocate h
    | expression | limit | fresh | enclosed | get | contains | display | bindings => trivial

theorem Event.unwrapped_of_fits {event : Event} (h : Discipline.unwrapped.Fits event) :
    event.Unwrapped := by
  cases event with
  | begins part =>
    cases part with
    | application f args => exact List.forall_mem_cons.mpr h
    | expression | statement | sequence => nofun
  | ends part v =>
    cases part with
    | application f args =>
      obtain ⟨hf, hargs, hv⟩ := h
      have hend : ∀ w ∈ [v], w.Plain := List.forall_mem_singleton.mpr hv
      exact List.forall_mem_cons.mpr ⟨hf, List.forall_mem_append.mpr ⟨hargs, hend⟩⟩
    | expression | statement | sequence => exact h
  | unary | tests | binds => exact List.forall_mem_singleton.mpr h
  | binary v op w => exact List.forall_mem_cons.mpr ⟨h.1, List.forall_mem_singleton.mpr h.2⟩
  | enters => nofun

theorem Reply.unwrapped_of_answers {wraps : Bool} {reply : Reply}
    (h : Discipline.unwrapped.Answers wraps reply) : reply.Unwrapped wraps := by
  cases reply with
  | error e => cases e <;> exact h
  | nothing | value | place | truth | text | bindings => exact h

/-- **Wrappers never leak.**  After any steps that bring no wrapper along, at every moment of
    the next one and when it is over, no scope binds a wrapper; expressions and statements come
    to a value that is wrapped at most once; and what programs and calls come to, operands,
    callees, arguments and the values in faults are not wrapped. -/
theorem wrappers_never_leak (calls : Int) (steps : List Step) (step : Step)
    (hsteps : ∀ t ∈ steps, t.Unwrapped) (hstep : step.Unwrapped) :
    let session := (Session.start calls).after steps
    let seen := session.watch step
    (seen.reply, seen.session) = session.take step ∧
    session.machine.Plain ∧
    (∀ moment ∈ seen.moments, moment.machine.Plain ∧ moment.event.Unwrapped) ∧
    (session.take step).2.machine.Plain ∧
    (session.take step).1.Unwrapped step.wraps := by
  intro session seen
  have hbefore : session.machine.Plain :=
    Discipline.each_after calls fun t ht => (hsteps t ht).given
  have hsame : (seen.reply, seen.session) = session.take step := session.watch_of step
  have hsees := Discipline.sees_watch (D := .unwrapped) hbefore hstep.given
  refine ⟨hsame, hbefore, ?_, ?_, ?_⟩
  · intro moment hmoment
    obtain ⟨hscopes, hfits⟩ := hsees.moments moment hmoment
    exact ⟨hscopes, Event.unwrapped_of_fits hfits⟩
  · rw [← hsame]
    exact hsees.scopes
  · rw [← hsame]
    exact Reply.unwrapped_of_answers hsees.reply

/-- An argument that returns ends the expression that it is in, and its value arrives wrapped
    once; the program that consists of this expression takes the wrapper off. -/
theorem wrappers_never_leak_argument :
    let define : Step := .program 0 [.define "f" (.fn ["x"] [.ret (.ident "x")])]
    let call : Expr := .call (.ident "f") [.cond (.bool true) [.ret (.int 1)] none]
    let session := (Session.start 400).after [define]
    (session.take (.command (.expression 0 call))).1 = .value (.returned (.int 1)) ∧
    (Reply.value (.returned (.int 1))).Unwrapped true ∧
    (session.take (.program 0 [.expr call])).1 = .value (.int 1) ∧
    (Reply.value (.int 1)).Unwrapped false ∧
    (session.take (.program 0 [.expr call])).2.machine.Plain := by
  intro define call session
  have hdefine : ∀ t ∈ [define], t.Unwrapped := List.forall_mem_singleton.mpr trivial
  have hwrapped : (session.take (.command (.expression 0 call))).1 =
      .value (.returned (.int 1)) := rfl
  have hvalue : (session.take (.program 0 [.expr call])).1 = .value (.int 1) := rfl
  obtain ⟨-, -, -, -, hexpression⟩ :=
    wrappers_never_leak 400 [define] (.command (.expression 0 call)) hdefine trivial
  obtain ⟨-, -, -, hplain, hprogram⟩ :=
    wrappers_never_leak 400 [define] (.program 0 [.expr call]) hdefine trivial
  rw [hwrapped] at hexpression
  rw [hvalue] at hprogram
  exact ⟨hwrapped, hexpression, hvalue, hprogram, hplain⟩

end Treewalk
