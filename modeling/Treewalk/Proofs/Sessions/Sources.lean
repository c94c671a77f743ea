/-
  Treewalk/Proofs/Sessions/Sources.lean
  =====================================
  **Texts reach nothing that is there for broken trees.**  The operators that a
  tree read from a text can have are those that values have, nothing is missing
  in it but behind a `return`, and no statement is missing at all.

  Which operators there are is said in two places, where texts are read and
  where operations are carried out.  That the two agree is an invariant of all
  function values that a session can reach, since their bodies are run long
  after they were read.
-/
import Treewalk.Proofs.Evaluation.Rules
import Treewalk.Proofs.Sessions.Course
import Treewalk.Proofs.Sessions.Range

namespace Treewalk

/-! ### What is there for broken trees -/

/-- The fault says that there is no such unary operator, or no such operator on numbers. -/
def Fault.UnknownOperator : Fault → Prop
  | unknownUnary _ _ => True
  | unknownBinary _ .integer => True
  | _ => False

/-- What can happen in a tree that is read from a text, when these parts are under way: nothing
    is missing in it but behind a `return`, and its operators are known. -/
def Event.Sourced (parts : List Part) : Event → Prop
  | begins (.expression .empty) => parts.head? = some (.statement (.ret .empty))
  | begins (.statement .empty) => False
  | unary op _ => op ∈ unaryOperators
  | binary _ op _ => op ∈ binaryOperators
  | _ => True

/-! ### The operators of texts are those of values -/

section Operators

variable {op : String} {v w : Value} {f : Fault}

theorem known_unary (hop : op ∈ unaryOperators) (h : v.unary op = .error f) :
    ¬f.UnknownOperator := by
  simp only [unaryOperators, List.mem_cons, List.not_mem_nil, or_false] at hop
  rcases hop with rfl | rfl
  · rcases htruth : v.truth with f' | b <;> rw [Value.unary, htruth] at h <;> cases h
    obtain ⟨params, body, s, rfl⟩ := fault_truth htruth
    exact id
  · cases v with
    | int x =>
      obtain ⟨-, rfl⟩ := fault_checked h
      exact id
    | bool | null | returned | fn =>
      cases h
      exact id

/-- The operators that can be read are the operators that numbers have. -/
theorem binaryOperators_eq : binaryOperators = ValueKind.integer.operators := rfl

theorem known_binary (hop : op ∈ binaryOperators) (h : v.binary op w = .error f) :
    ¬f.UnknownOperator := by
  cases Value.binary_iff.mp h with
  | mismatch | overflow | divisionByZero => exact id
  | unknown hkind hunknown =>
    intro hf
    cases hk : v.kind with
    | integer =>
      rw [hk, ← binaryOperators_eq] at hunknown
      exact hunknown hop
    | boolean | null | returnValue | function =>
      rw [hk] at hf
      exact hf

end Operators

/-! ### The discipline -/

/-- What can be written, without the faults that are there for what cannot. -/
def Discipline.sourced : Discipline :=
  { Discipline.written with
    fault := fun f => ¬f.UnknownOperator
    unbound := fun _ => id
    truth := fun _ h => by
      obtain ⟨params, body, s, rfl⟩ := fault_truth h
      exact id
    unary := fun he _ h => known_unary (he.resolve_left nofun).1 h
    binary := fun he _ _ h => known_binary (he.resolve_left nofun).2.1 h
    callee := fun _ => id
    arity := fun _ _ => id
    calls := fun _ => id
    nesting := id }

theorem Step.FromText.given_sourced {step : Step} (h : step.FromText) :
    Discipline.sourced.Given step := by
  have hgiven := h.given
  cases step with
  | program | sequence => exact h.elim
  | limits => trivial
  | command c => cases c <;> exact hgiven

/-! ### Events -/

theorem Expr.Printable.sourced {e : Expr} (h : e.Printable) (parts : List Part) :
    (Event.begins (.expression e)).Sourced parts := by
  cases e with
  | empty => exact h.elim
  | ident | int | bool | unary | binary | cond | fn | call => exact trivial

theorem Stmt.Printable.sourced {stmt : Stmt} (h : stmt.Printable) (parts : List Part) :
    (Event.begins (.statement stmt)).Sourced parts := by
  cases stmt with
  | empty => exact h.elim
  | define | ret | expr | block => exact trivial

/-- Only a `return` allows an expression to be missing. -/
theorem Part.Allows.sourced {part : Part} {event : Event} {parts : List Part}
    (h : part.Allows event) (hpart : Discipline.written.Fits (.begins part)) :
    event.Sourced (part :: parts) := by
  cases h with
  | operand => exact Expr.Printable.sourced (hpart.resolve_left (by simp)).2 _
  | unary => exact (hpart.resolve_left (by simp)).1
  | left => exact Expr.Printable.sourced (hpart.resolve_left (by simp)).1 _
  | right => exact Expr.Printable.sourced (hpart.resolve_left (by simp)).2.2 _
  | binary => exact (hpart.resolve_left (by simp)).2.1
  | test => exact Expr.Printable.sourced (hpart.resolve_left (by simp)).1 _
  | callee => exact Expr.Printable.sourced (hpart.resolve_left (by simp)).1 _
  | argument he =>
    exact (Expr.printable_of_mem (hpart.resolve_left (by simp)).2 _ he).sourced _
  | statement hstmt => exact Stmt.Printable.sourced (hpart _ hstmt) _
  | defined => exact Expr.Printable.sourced hpart.2 _
  | returned =>
    rcases hpart with rfl | he
    · rfl
    · exact Expr.Printable.sourced he _
  | value => exact Expr.Printable.sourced hpart _
  | ends part v => exact trivial
  | tests | body | other | applied | enters | entered | binds | block => exact trivial

/-- What happens in order in the program of a text is sourced, if all parts can be written. -/
theorem InOrder.sourced {p : Program} {limit : Int} {later earlier : List Moment} {moment : Moment}
    (h : InOrder (.sequence p) limit (later ++ moment :: earlier))
    (hfits : ∀ m ∈ earlier, Discipline.written.Fits m.event) :
    moment.event.Sourced (underWay earlier) := by
  have hparts : ∀ part ∈ underWay earlier, Discipline.written.Fits (.begins part) := by
    intro part hpart
    obtain ⟨m, hm, hevent⟩ := exists_begins hpart
    exact hevent ▸ hfits m hm
  have hinside := h.follows.inside
  generalize moment.event = event at hinside ⊢
  generalize underWay earlier = parts at hinside hparts ⊢
  cases hinside with
  | outermost => exact trivial
  | within hallows => exact hallows.sourced (hparts _ List.mem_cons_self)

/-! ### Sessions of texts -/

theorem Step.FromText.inOrder {session : Session} (h : session.machine.callDepth = 0) {step : Step}
    (hstep : step.FromText) :
    ∃ p, InOrder (.sequence p) session.limits.calls (session.watch step).moments := by
  cases step with
  | program | sequence => exact hstep.elim
  | limits => exact ⟨[], trivial⟩
  | command c =>
    cases c with
    | run => exact Session.inOrder_observeText h fun p => leads_program _ _ _ p
    | statements =>
      refine Session.inOrder_observeText h fun p => ?_
      exact leads_block (leads_expression _ _ _) _ .outermost
    | expression | apply | applyNamed | set => exact hstep.elim
    | limit | fresh | enclosed | get | contains | display | bindings => exact ⟨[], trivial⟩

/-- **Texts reach nothing that is there for broken trees.**  After any steps that evaluate texts,
    the next one fails for no unknown unary operator, and for no unknown operator on numbers.
    In its course, through all calls of function values that any of the texts made, operators
    are carried out that can be read only; an expression that is missing is evaluated nowhere
    but as what a `return` directly around it returns, and no statement that is missing is
    evaluated. -/
theorem broken_trees_unreached (calls : Int) (steps : List Step) (step : Step)
    (hsteps : ∀ t ∈ steps, t.FromText) (hstep : step.FromText) :
    let session := (Session.start calls).after steps
    let seen := session.watch step
    (seen.reply, seen.session) = session.take step ∧
    (∀ f, (session.take step).1 = .error (.fault f) → ¬f.UnknownOperator) ∧
    ∀ later moment earlier, seen.moments = later ++ moment :: earlier →
      moment.event.Sourced (underWay earlier) := by
  intro session seen
  have hbefore := written_after calls hsteps
  have hidle : session.machine.callDepth = 0 := Session.callDepth_after rfl steps
  have hsame : (seen.reply, seen.session) = session.take step := session.watch_of step
  refine ⟨hsame, fun f hf => ?_, fun later moment earlier hsplit => ?_⟩
  · have hsees := Discipline.sees_watch (D := .sourced) hbefore hstep.given_sourced
    have hreply : seen.reply = .error (.fault f) := (session.reply_watch step).trans hf
    have hanswers : Discipline.sourced.Answers step.wraps seen.reply := hsees.reply
    rw [hreply] at hanswers
    exact hanswers
  · have hsees := sees_written calls hsteps hstep
    obtain ⟨p, horder⟩ := hstep.inOrder hidle
    refine InOrder.sourced (hsplit ▸ horder) fun m hm => ?_
    have hmem : m ∈ seen.moments := by
      rw [hsplit]
      exact List.mem_append_right _ (List.mem_cons_of_mem _ hm)
    exact (hsees.moments m hmem).2

/-- The body of a function is run by a later text: its bare `return` returns what is missing. -/
theorem broken_trees_unreached_return :
    let define : Program := [.define "f" (.fn [] [.ret .empty])]
    let call : Program := [.expr (.call (.ident "f") [])]
    let steps : List Step := [.command (.run 0 (Program.print define)), .limits ⟨1, 10⟩]
    let step : Step := .command (.run 0 (Program.print call))
    let session := (Session.start 400).after steps
    (∀ t ∈ steps, t.FromText) ∧ step.FromText ∧ (session.take step).1 = .value .null ∧
    ∀ later moment earlier, (session.watch step).moments = later ++ moment :: earlier →
      moment.event.Sourced (underWay earlier) := by
  intro define call steps step session
  have hsteps : ∀ t ∈ steps, t.FromText :=
    List.forall_mem_cons.mpr ⟨trivial, List.forall_mem_singleton.mpr trivial⟩
  have hdefine := take_print (.start 400) 0 (p := define) (by decide +kernel) (by decide +kernel)
  have hcall := take_print session 0 (p := call) (by decide +kernel) (by decide +kernel)
  have hafter : session = (Session.start 400).after [.program 0 define, .limits ⟨1, 10⟩] :=
    congrArg (fun taken => { taken.2 with limits := ⟨1, 10⟩ }) hdefine
  have hreply : (session.take step).1 = .value .null := by
    refine (congrArg Prod.fst hcall).trans ?_
    rw [hafter]
    rfl
  obtain ⟨-, -, hsourced⟩ := broken_trees_unreached 400 steps step hsteps trivial
  exact ⟨hsteps, trivial, hreply, hsourced⟩

end Treewalk
