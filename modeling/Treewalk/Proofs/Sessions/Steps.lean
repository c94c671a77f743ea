/-
  Treewalk/Proofs/Sessions/Steps.lean
  ===================================
  **Sessions step by step**: what a session comes to after a list of steps,
  and what happens in the course of a step.

  Beside its commands a session is given programs and statements as trees, of
  which there are more than can be written, and limits of any kind.  A step
  that is watched keeps a trace of its evaluation, and does what it does when
  it is not.

  If all that comes from outside keeps a discipline, then all that is bound,
  replied or met on the way keeps it, after any number of steps.
-/
import Treewalk.Proofs.Evaluation.Discipline
import Treewalk.Session

namespace Treewalk

/-! ### Steps -/

inductive Step where
  | command (command : Command)
  /-- Runs a program that is given as a tree. -/
  | program (scope : Nat) (p : Program)
  /-- Evaluates statements that are given as trees; a returned value stays wrapped. -/
  | sequence (scope : Nat) (body : Block)
  | limits (limits : Limits)

/-- Whether a returned value stays wrapped in the reply. -/
def Step.wraps : Step → Bool
  | command (.statements _ _) | command (.expression _ _) | sequence _ _ => true
  | _ => false

namespace Session

def take (session : Session) : Step → Reply × Session
  | .command c => session.step c
  | .program scope p =>
    session.perform <|
      Eval.program session.limits.calls session.limits.nesting (session.scopeAt scope) p
  | .sequence scope body =>
    session.perform (Eval.block session.limits.expression (session.scopeAt scope) body)
  | .limits limits => (.nothing, { session with limits })

def after (session : Session) (steps : List Step) : Session :=
  steps.foldl (fun session step => (session.take step).2) session

/-! ### Watching -/

/-- A reply, the session behind it, and what has happened. -/
structure Observation where
  reply : Reply
  session : Session
  moments : List Moment

def observe (session : Session) (body : Traced Value) : Observation :=
  let (result, t) := body (.start session.machine)
  ⟨.ofResult (result.mapError .fault), { session with machine := t.machine }, t.moments⟩

/-- Nothing happens that is kept. -/
def pass (outcome : Reply × Session) : Observation := ⟨outcome.1, outcome.2, []⟩

def observeText (session : Session) (text : String) (body : Program → Traced Value) :
    Observation :=
  match parse text with
  | .error e => pass (.error (.parse e), session)
  | .ok p => session.observe (body p)

/-- Evaluates expressions with a trace, within the limits of the session. -/
def traced (session : Session) : ScopeId → Expr → Traced Value :=
  Traced.expression session.limits.calls session.limits.nesting

/-- Takes a step with a trace of its evaluation. -/
def watch (session : Session) : Step → Observation
  | .command (.run scope text) =>
    session.observeText text <|
      Traced.program session.limits.calls session.limits.nesting (session.scopeAt scope)
  | .command (.statements scope text) =>
    session.observeText text (Traced.block session.traced (session.scopeAt scope))
  | .command (.expression scope tree) =>
    session.observe (session.traced (session.scopeAt scope) tree)
  | .command (.apply callee args) =>
    session.observe <|
      Traced.apply session.traced session.limits.calls (session.settle callee)
        (args.map session.settle)
  | .command (.applyNamed scope name args) =>
    session.observe do
      let callee ← Traced.lift (Eval.read (session.scopeAt scope) name)
      Traced.apply session.traced session.limits.calls callee (args.map session.settle)
  | .program scope p =>
    session.observe <|
      Traced.program session.limits.calls session.limits.nesting (session.scopeAt scope) p
  | .sequence scope body =>
    session.observe (Traced.block session.traced (session.scopeAt scope) body)
  | step => pass (session.take step)

/-- The observation is one of this outcome. -/
def Observation.Of (o : Observation) (outcome : Reply × Session) : Prop :=
  (o.reply, o.session) = outcome

theorem observe_of {session : Session} {t : Traced Value} {c : Eval Value} (h : Erases t c) :
    (session.observe t).Of (session.perform c) := by
  have herase := h (.start session.machine)
  simp only [Trace.start] at herase
  simp only [Observation.Of, observe, perform, Trace.start, herase]
  rfl

theorem observeText_of {session : Session} {text : String} {t : Program → Traced Value}
    {c : Program → Eval Value} (h : ∀ p, Erases (t p) (c p)) :
    (session.observeText text t).Of
      (match parse text with
        | .error e => (.error (.parse e), session)
        | .ok p => session.perform (c p)) := by
  unfold observeText
  cases parse text with
  | error e => rfl
  | ok p => exact observe_of (h p)

theorem step_run (session : Session) (scope : Nat) (text : String) :
    session.step (.run scope text) =
      match parse text with
      | .error e => (.error (.parse e), session)
      | .ok p => session.perform <|
          Eval.program session.limits.calls session.limits.nesting (session.scopeAt scope) p := by
  simp only [step, Machine.runText]
  cases parse text <;> rfl

/-- A step does the same whether it is watched or not. -/
theorem watch_of (session : Session) (step : Step) :
    (session.watch step).Of (session.take step) := by
  have hexpr : ∀ s e, Erases (session.traced s e) (session.limits.expression s e) :=
    erases_expression _ _
  cases step with
  | program scope p => exact observe_of (erases_program _ _ _ p)
  | sequence scope body => exact observe_of (erases_block hexpr _ body)
  | limits limits => rfl
  | command c =>
    cases c with
    | run scope text =>
      rw [take, step_run]
      exact observeText_of (erases_program _ _ _)
    | statements scope text => exact observeText_of (erases_block hexpr _)
    | expression scope tree => exact observe_of (hexpr _ tree)
    | apply callee args => exact observe_of (erases_apply hexpr _ _ _)
    | applyNamed scope name args =>
      exact observe_of ((Erases.lift _).bind fun f => erases_apply hexpr _ f _)
    | limit | fresh | enclosed | set | get | contains | display | bindings => rfl

theorem reply_watch (session : Session) (step : Step) :
    (session.watch step).reply = (session.take step).1 :=
  congrArg Prod.fst (session.watch_of step)

end Session

/-! ### Steps that keep a discipline -/

namespace Discipline

variable (D : Discipline)

/-- What the step brings along keeps the discipline: values wherever their functions are
    placed, and trees be they given or read from a text. -/
def Given : Step → Prop
  | .command (.run _ text) | .command (.statements _ text) =>
    ∀ p, parse text = .ok p → ∀ stmt ∈ p, D.stmt stmt
  | .command (.expression _ tree) => D.expr tree
  | .command (.apply f args) =>
    (∀ place, D.value (f.relocate place)) ∧ ∀ v ∈ args, ∀ place, D.value (v.relocate place)
  | .command (.applyNamed _ _ args) => ∀ v ∈ args, ∀ place, D.value (v.relocate place)
  | .command (.set _ _ v) => ∀ place, D.value (v.relocate place)
  | .program _ body | .sequence _ body => ∀ stmt ∈ body, D.stmt stmt
  | _ => True

/-- What is replied keeps the discipline. -/
def Answers (wraps : Bool) : Reply → Prop
  | .value v => if wraps then D.Carried v else D.value v
  | .bindings b => b.Each D.value
  | .error (.fault f) => D.fault f
  | _ => True

theorem Carried.of_answers {D : Discipline} {wraps : Bool} {v : Value}
    (h : D.Answers wraps (.value v)) : D.Carried v := by
  cases wraps with
  | true => exact h
  | false => exact .of_value h

/-- All that was observed keeps the discipline. -/
structure Sees (wraps : Bool) (o : Session.Observation) : Prop where
  scopes : o.session.machine.scopes.Each D.value
  reply : D.Answers wraps o.reply
  moments : ∀ moment ∈ o.moments, moment.machine.scopes.Each D.value ∧ D.Fits moment.event

variable {D} {session : Session} (hscopes : session.machine.scopes.Each D.value)

include hscopes

theorem sees_observe {wraps : Bool} {P : Value → Prop} {c : Traced Value} (h : D.Keeps P c)
    (hP : ∀ v, P v → D.Answers wraps (.value v)) : D.Sees wraps (session.observe c) := by
  obtain ⟨hkept, hok, herror⟩ := h (.start session.machine) ⟨hscopes, nofun⟩
  rw [Session.observe]
  rcases hc : c (.start session.machine) with ⟨f | v, t⟩ <;> rw [hc] at hkept hok herror
  · exact ⟨hkept.scopes, herror f rfl, hkept.moments⟩
  · exact ⟨hkept.scopes, hP v (hok v rfl), hkept.moments⟩

theorem sees_observeText {wraps : Bool} {P : Value → Prop} {text : String}
    {c : Program → Traced Value}
    (h : ∀ p, parse text = .ok p → D.Keeps P (c p)) (hP : ∀ v, P v → D.Answers wraps (.value v)) :
    D.Sees wraps (session.observeText text c) := by
  unfold Session.observeText
  cases hparse : parse text with
  | error e => exact ⟨hscopes, trivial, nofun⟩
  | ok p => exact sees_observe hscopes (h p hparse) hP

/-- One step. -/
theorem sees_watch {step : Step} (h : D.Given step) : D.Sees step.wraps (session.watch step) := by
  have hexpr := D.keeps_expression session.limits.calls session.limits.nesting
  have hsettle {args : List Value} (h : ∀ v ∈ args, ∀ place, D.value (v.relocate place)) :
      ∀ v ∈ args.map session.settle, D.value v := by
    intro v hv
    obtain ⟨w, hw, rfl⟩ := List.mem_map.mp hv
    exact h w hw _
  cases step with
  | program scope p => exact sees_observe hscopes (D.keeps_program _ _ _ h) fun _ hv => hv
  | sequence scope body => exact sees_observe hscopes (keeps_block hexpr _ h) fun _ hv => hv
  | limits limits => exact ⟨hscopes, trivial, nofun⟩
  | command c =>
    cases c with
    | run scope text =>
      exact sees_observeText hscopes (fun p hp => D.keeps_program _ _ _ (h p hp)) fun _ hv => hv
    | statements scope text =>
      exact sees_observeText hscopes (fun p hp => keeps_block hexpr _ (h p hp)) fun _ hv => hv
    | expression scope tree => exact sees_observe hscopes (hexpr _ tree h) fun _ hv => hv
    | apply callee args =>
      exact sees_observe hscopes (keeps_apply hexpr _ (h.1 _) (hsettle h.2)) fun _ hv => hv
    | applyNamed scope name args =>
      refine sees_observe hscopes ((Keeps.read _ name).bind fun f hf => ?_) fun _ hv => hv
      exact keeps_apply hexpr _ hf (hsettle h)
    | limit | contains | display => exact ⟨hscopes, trivial, nofun⟩
    | fresh => exact ⟨hscopes.push nofun, trivial, nofun⟩
    | enclosed => exact ⟨hscopes.enclose _ nofun, trivial, nofun⟩
    | set scope name v => exact ⟨hscopes.bind _ _ (h _), h _, nofun⟩
    | get scope name =>
      refine ⟨hscopes, ?_, nofun⟩
      simp only [Session.watch, Session.pass, Session.take, Session.step, Session.find?]
      cases hfind : session.machine.scopes.find? (session.scopeAt scope) name with
      | none => trivial
      | some v => exact hscopes.find? hfind
    | bindings scope => exact ⟨hscopes, hscopes.bindings _, nofun⟩

omit hscopes in
/-- Any number of steps, from a session in which nothing is bound. -/
theorem each_after (calls : Int) {steps : List Step} (h : ∀ step ∈ steps, D.Given step) :
    ((Session.start calls).after steps).machine.scopes.Each D.value := by
  have hstart : (Session.start calls).machine.scopes.Each D.value := .new
  generalize Session.start calls = session at hstart ⊢
  induction steps generalizing session with
  | nil => exact hstart
  | cons step steps ih =>
    obtain ⟨hstep, hsteps⟩ := List.forall_mem_cons.mp h
    have hsame : (session.watch step).session = (session.take step).2 :=
      congrArg Prod.snd (session.watch_of step)
    have hnext := (sees_watch hstart hstep).scopes
    rw [hsame] at hnext
    exact ih hsteps _ hnext

end Discipline

end Treewalk
