/-
  Treewalk/Proofs/Sessions/ReadBack.lean
  ======================================
  **Shown values read back.**  Run by itself, the text of a number, a truth
  value or a function that texts have made comes to an equal value, whatever
  scope a function holds.

  A number below zero is read as the negation of one above it.  There is one
  more number below zero than above, so the text of the least one is refused.

  So values of one of these kinds are equal when their texts are.  Null has a
  text too, but it is read as a name.
-/
import Mathlib.Control.Monad.Basic
import Treewalk.Proofs.Sessions.Range

namespace Treewalk

/-! ### Values that a session makes -/

/-- The kinds whose values have texts that are read as values of this kind. -/
def ValueKind.ReadsBack : ValueKind → Prop
  | integer | boolean | function => True
  | null | returnValue => False

/-- Some session makes the value, and evaluates nothing but texts: the value is replied, or is
    bound in some scope at some moment of a step or behind it. -/
inductive Value.Made (v : Value) : Prop
  | replied {calls : Int} {steps : List Step} {step : Step} : (∀ t ∈ steps, t.FromText) →
      step.FromText → (((Session.start calls).after steps).take step).1 = .value v → Made v
  | bound {calls : Int} {steps : List Step} {s : ScopeId} {x : String} :
      (∀ t ∈ steps, t.FromText) →
      (((Session.start calls).after steps).machine.scopes.bindings s).lookup x = some v → Made v
  | passing {calls : Int} {steps : List Step} {step : Step} {moment : Moment} {s : ScopeId}
      {x : String} : (∀ t ∈ steps, t.FromText) → step.FromText →
      moment ∈ (((Session.start calls).after steps).watch step).moments →
      (moment.machine.scopes.bindings s).lookup x = some v → Made v

section Made

variable {v : Value}

/-- What is made can be written, or is a wrapper of what can be. -/
theorem Value.Made.carried (h : v.Made) : Discipline.written.Carried v := by
  cases h with
  | @replied calls steps step hsteps hstep hreply =>
    have hanswers := (sees_written calls hsteps hstep).reply
    rw [Session.reply_watch, hreply] at hanswers
    exact .of_answers hanswers
  | bound hsteps hlookup => exact .of_value (((written_after _ hsteps).bindings _).lookup hlookup)
  | passing hsteps hstep hmoment hlookup =>
    have hscopes := ((sees_written _ hsteps hstep).moments _ hmoment).1
    exact .of_value ((hscopes.bindings _).lookup hlookup)

theorem Value.Made.written (h : v.Made) (hk : v.kind.ReadsBack) : v.Written := by
  have hcarried := h.carried
  cases v with
  | int | bool | fn => exact hcarried
  | null | returned => exact hk.elim

end Made

/-! ### The expressions that values are shown as -/

/-- The expression that the text of a value is, where there is one. -/
def Value.spelling : Value → Expr
  | int x => if 0 ≤ x then .int x else .unary "-" (.int (-x))
  | bool b => .bool b
  | fn params body _ => .fn params body
  | null | returned _ => .empty

theorem denotes_of_spelled {e : Expr} {text : String}
    (h : Spelled (.expression .equality e) text.toList) : Denotes text [.expr e] := by
  have hexpr := h [] breaks_nil
  rw [List.append_nil, tokensFrom_nil] at hexpr
  exact denotes_iff.mpr (.cons (.bare hexpr rfl) .noStatements)

theorem spelled_negative {x : Int} (hx : x < 0) (hrange : -x ≤ Number.greatest) :
    Spelled (.expression .unary (.unary "-" (.int (-x)))) (toString x).toList := by
  obtain ⟨n, rfl⟩ := Int.eq_negSucc_of_lt_zero hx
  have htext : toString (Int.negSucc n) = "-" ++ toString (n + 1) := rfl
  have hnumeral : Spelled (.expression .call (.int (-Int.negSucc n))) (toString (n + 1)).toList :=
    spelled_int ⟨by omega, hrange⟩
  rw [htext, String.toList_append]
  exact hnumeral.unary (by decide)

theorem Value.Written.denotes {v : Value} (h : v.Written) (hk : v.kind.ReadsBack)
    (hv : v ≠ .int Number.least) : Denotes v.display [.expr v.spelling] := by
  refine denotes_of_spelled ?_
  have hexpr (e : Expr) (he : e.Printable) : Spelled (.expression .equality e) e.print.toList :=
    (e.spelled he).loosen (Precedence.le_call _)
  cases v with
  | int x =>
    by_cases hx : 0 ≤ x
    · rw [spelling, if_pos hx]
      exact hexpr (.int x) ⟨hx, h.2⟩
    · have hne : x ≠ Number.least := fun heq => hv (congrArg Value.int heq)
      have hrange : -x ≤ Number.greatest := by
        have hleast := h.1
        unfold Number.least at hne hleast
        unfold Number.greatest
        omega
      rw [spelling, if_neg hx]
      exact (spelled_negative (Int.not_le.mp hx) hrange).loosen (by decide)
  | bool b => cases b <;> exact hexpr (.bool _) trivial
  | fn params body s => exact hexpr (.fn params body) h
  | null | returned => exact hk.elim

/-! ### Reading back -/

/-- Run by itself, the text of the value comes to an equal one, unless a text of more tokens than
    may be nested is nested too deep. -/
def Value.ReadBack (limits : Limits) (v : Value) : Prop :=
  (∃ w, (runText limits v.display).result = .ok w ∧ w.same v = true) ∨
    nestingLimit < (scan v.display).length ∧
      ∃ e, (runText limits v.display).result = .error (.parse e) ∧ e.error = .tooDeep

theorem runText_error {text : String} {e : ParseError} (h : parse text = .error e)
    (limits : Limits) : (runText limits text).result = .error (.parse e) := by
  simp only [runText, Outcome.ofRun, Machine.runText, h]

theorem runText_ok {text : String} {p : Program} (h : parse text = .ok p) (limits : Limits) :
    (runText limits text).result = (Machine.new.run limits 0 p).1 := by
  simp only [runText, Outcome.ofRun, Machine.runText, h]

/-- A program that is an expression comes to what the expression comes to. -/
theorem Machine.run_expr {calls : Int} {nesting : Nat} {s : ScopeId} {e : Expr} {m m' : Machine}
    {v : Value} (h : Eval.expression calls nesting s e m = (.ok v, m')) :
    (m.run ⟨calls, nesting⟩ s [.expr e]).1 = .ok v.unwrap := by
  have hblock : Eval.block (Eval.expression calls nesting) s [.expr e] m = (.ok v, m') := by
    rw [Eval.block, Eval.statements, Eval.statement, Eval.bind_apply, h]
    cases v <;> rfl
  rw [Machine.run, Eval.program, Eval.bind_apply, Eval.endingCalls, hblock]
  rfl

theorem unary_minus {x : Int} (hx : Number.InRange x) :
    Value.unary "-" (.int (-x)) = .ok (.int x) := by
  show checked (- -x) = .ok (.int x)
  rw [Int.neg_neg, checked, if_pos hx]

/-- The expression comes to an equal value, whatever the scope that the value holds. -/
theorem run_spelling {v : Value} (h : v.Written) (hk : v.kind.ReadsBack) {limits : Limits}
    (hlimits : 2 ≤ limits.nesting) :
    ∃ w, (Machine.new.run limits 0 [.expr v.spelling]).1 = .ok w ∧ w.same v = true := by
  obtain ⟨calls, nesting⟩ := limits
  obtain ⟨allowance, rfl⟩ := Nat.exists_eq_add_of_le' hlimits
  cases v with
  | int x =>
    refine ⟨.int x, ?_, by simp [Value.same]⟩
    by_cases hx : 0 ≤ x
    · rw [Value.spelling, if_pos hx]
      rfl
    · have hexpr : Eval.expression calls (allowance + 2) 0 (.unary "-" (.int (-x))) .new =
          (.ok (.int x), .new) := congrArg (·, Machine.new) (unary_minus h)
      rw [Value.spelling, if_neg hx]
      exact Machine.run_expr hexpr
  | bool b => exact ⟨.bool b, rfl, by simp [Value.same]⟩
  | fn params body s => exact ⟨.fn params body 0, rfl, by simp [Value.same]⟩
  | null | returned => exact hk.elim

theorem Value.Written.readBack {v : Value} (h : v.Written) (hk : v.kind.ReadsBack)
    (hv : v ≠ .int Number.least) {limits : Limits} (hlimits : 2 ≤ limits.nesting) :
    v.ReadBack limits := by
  rcases (h.denotes hk hv).parseWithin nestingLimit with hparse | ⟨hlong, e, hparse, he⟩
  · obtain ⟨w, hw, hsame⟩ := run_spelling h hk hlimits
    exact .inl ⟨w, (runText_ok hparse limits).trans hw, hsame⟩
  · exact .inr ⟨hlong, e, runText_error hparse limits, he⟩

/-! ### Equal values and equal texts -/

theorem Value.display_of_same {v w : Value} (h : v.same w = true) : v.display = w.display := by
  induction v generalizing w with
  | int x | bool x =>
    cases w <;> simp [same] at h
    rw [h]
  | null =>
    cases w <;> simp [same] at h
    rfl
  | returned v ih =>
    cases w with
    | returned w => exact ih (w := w) h
    | int | bool | null | fn => cases h
  | fn params body s =>
    cases w <;> simp [same] at h
    obtain ⟨rfl, rfl⟩ := h
    rfl

theorem Value.Written.same_of_display {v w : Value} (hv : v.Written) (hw : w.Written)
    (hk : v.kind.ReadsBack) (hkind : v.kind = w.kind) (h : v.display = w.display) :
    v.same w = true := by
  cases v with
  | int x =>
    cases w <;> cases hkind
    obtain rfl := toString_int_inj h
    simp [same]
  | bool x =>
    cases w with
    | bool y =>
      revert h
      cases x <;> cases y <;> decide
    | int | null | returned | fn => cases hkind
  | fn params body s =>
    cases w <;> cases hkind
    have htext := hw.denotes hk nofun
    rw [← h] at htext
    have hspelling := (hv.denotes hk nofun).unique htext
    cases hspelling
    simp [same]
  | null | returned => exact hk.elim

/-- **Shown values read back.**  A number, a truth value or a function that any texts have made,
    but for the least number, is found again when its text is run by itself, with any limit on
    calls, unless the text is nested too deep; the text of the least number is refused.  So two
    such values of one kind are equal when their texts are, and only then. -/
theorem shown_values_read_back (v : Value) (hv : v.Made) (hk : v.kind.ReadsBack) :
    (v ≠ .int Number.least → ∀ limits : Limits, 2 ≤ limits.nesting → v.ReadBack limits) ∧
    (v = .int Number.least → ∀ limits : Limits,
      ∃ e, (runText limits v.display).result = .error (.parse e)) ∧
    ∀ w : Value, w.Made → w.kind = v.kind → (v.same w = true ↔ v.display = w.display) := by
  refine ⟨fun hleast limits => (hv.written hk).readBack hk hleast, ?_, fun w hw hkind => ?_⟩
  · rintro rfl limits
    have hrefused : parse (Value.int Number.least).display =
        .error ⟨.tooLarge "9223372036854775808", "-9223372036854775808", 1⟩ := by decide +kernel
    exact ⟨_, runText_error hrefused limits⟩
  · have hwritten := hw.written (hkind ▸ hk)
    exact ⟨Value.display_of_same, (hv.written hk).same_of_display hwritten hk hkind.symm⟩

/-- A function that holds the scope of a call is found again without it; the least number is made
    of two others, and its text is refused. -/
theorem shown_values_read_back_captured :
    let counter : Program := [.expr (.call (.fn ["n"] [.expr (.fn [] [.expr (.ident "n")])])
      [.int 3])]
    let least : Program := [.expr (.binary (.unary "-" (.int 9223372036854775807)) "-" (.int 1))]
    let f : Value := .fn [] [.expr (.ident "n")] 1
    ((Session.start 400).take (.command (.run 0 (Program.print counter)))).1 = .value f ∧
    ((Session.start 400).take (.command (.run 0 (Program.print least)))).1 =
      .value (.int Number.least) ∧
    f.display = "fn() \x7b n \x7d" ∧ f.ReadBack .standard ∧
    ∃ e, (runText .standard (Value.int Number.least).display).result = .error (.parse e) := by
  intro counter least f
  have hmade {text : String} {v : Value}
      (h : ((Session.start 400).take (.command (.run 0 text))).1 = .value v) : v.Made :=
    @Value.Made.replied v 400 [] (.command (.run 0 text)) nofun trivial h
  have hf : ((Session.start 400).take (.command (.run 0 (Program.print counter)))).1 =
      .value f := by
    rw [take_print (.start 400) 0 (by decide +kernel) (by decide +kernel)]
    rfl
  have hleast : ((Session.start 400).take (.command (.run 0 (Program.print least)))).1 =
      .value (.int Number.least) := by
    rw [take_print (.start 400) 0 (by decide +kernel) (by decide +kernel)]
    rfl
  obtain ⟨hreads, -, -⟩ := shown_values_read_back f (hmade hf) trivial
  obtain ⟨-, hrefused, -⟩ := shown_values_read_back (.int Number.least) (hmade hleast) trivial
  exact ⟨hf, hleast, by decide +kernel, hreads nofun _ (by decide), hrefused rfl _⟩

end Treewalk
