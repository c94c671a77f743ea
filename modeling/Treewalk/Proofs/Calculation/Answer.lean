/-
  Treewalk/Proofs/Calculation/Answer.lean
  =======================================
  **Calculating is exact**: a text that is an arithmetic term is answered with
  the number that it stands for, or with the first failure among its operations.

  The evaluator carries the operations out in their order and stops at the first
  that fails, so up to there it computes with exact numbers.  Nothing is bound on
  the way and no call begins.  What is left are the two limits on nesting: a text
  of more tokens than the one may be refused, and a term that is deeper than the
  other may be given up.
-/
import Treewalk.Proofs.Calculation.Arithmetic
import Treewalk.Proofs.Evaluation.Nesting

namespace Treewalk

/-! ### Operations -/

/-- The operation as the language carries it out. -/
def Operation.perform : Operation → Except Fault Value
  | negation x => (Value.int x).unary "-"
  | binary op x y => (Value.int x).binary op.symbol (.int y)

/-- The result is the number, or a fault that reads as the first failure of the operations. -/
def Settles (operations : List Operation) (exact : Int) (result : Except Fault Value) : Prop :=
  match operations.findSome? Operation.failure? with
  | none => result = .ok (.int exact)
  | some failure => ∃ f : Fault, result = .error f ∧ f.message = failure

theorem settles_checked {o : Operation} (h : o.perform = checked o.result)
    (hdivisor : ∀ x, o ≠ .binary .dividedBy x 0) : Settles [o] o.result o.perform := by
  have hfailure : o.failure? = if Number.InRange o.result then none
      else some (Fault.overflow o.result).message := by
    cases o with
    | negation x => rfl
    | binary op x y =>
      unfold Operation.failure?
      split
      · next heq => exact absurd heq (hdivisor _)
      · rfl
  unfold Settles
  rw [h, List.findSome?_singleton, hfailure, checked]
  by_cases hrange : Number.InRange o.result
  · rw [if_pos hrange, if_pos hrange]
  · rw [if_neg hrange, if_neg hrange]
    exact ⟨_, rfl, rfl⟩

theorem settles_perform (o : Operation) : Settles [o] o.result o.perform := by
  cases o with
  | negation x => exact settles_checked rfl nofun
  | binary op x y =>
    cases op with
    | plus => exact settles_checked rfl nofun
    | minus => exact settles_checked rfl nofun
    | times => exact settles_checked rfl nofun
    | dividedBy =>
      by_cases hy : y = 0
      · subst hy
        exact ⟨.divisionByZero x, rfl, rfl⟩
      · refine settles_checked ?_ ?_
        · show quotient x y = _
          rw [quotient, if_neg hy]
          rfl
        · rintro z ⟨⟩
          exact hy rfl

/-! ### Computations -/

/-- From every machine, which it leaves as it is, the computation settles the operations. -/
def Computes (operations : List Operation) (exact : Int) (c : Eval Value) : Prop :=
  ∀ m, ∃ result, c m = (result, m) ∧ Settles operations exact result

namespace Computes

theorem pure (x : Int) : Computes [] x (pure (.int x)) := fun _ => ⟨_, rfl, rfl⟩

theorem perform (o : Operation) : Computes [o] o.result (Eval.ofResult o.perform) :=
  fun _ => ⟨_, rfl, settles_perform o⟩

theorem bind {first last : List Operation} {x y : Int} {c : Eval Value}
    {next : Value → Eval Value} (h : Computes first x c) (hnext : Computes last y (next (.int x))) :
    Computes (first ++ last) y (c >>= fun v => Eval.unlessReturned v next) := by
  intro m
  obtain ⟨result, hc, hresult⟩ := h m
  rw [Eval.bind_apply, hc]
  unfold Settles at hresult ⊢
  rw [List.findSome?_append]
  cases hfirst : first.findSome? Operation.failure? with
  | none =>
    rw [hfirst] at hresult
    subst hresult
    exact hnext m
  | some failure =>
    rw [hfirst] at hresult
    obtain ⟨f, rfl, hf⟩ := hresult
    exact ⟨_, rfl, f, rfl, hf⟩

end Computes

theorem computes_tree (limit : Int) (s : ScopeId) (a : Arithmetic) {allowance : Nat}
    (h : a.tree.depth ≤ allowance) :
    Computes a.operations a.exact (Eval.expression limit allowance s a.tree) := by
  induction a generalizing allowance with
  | number n =>
    cases allowance with
    | zero => cases h
    | succ allowance => exact .pure n
  | negation a ih =>
    cases allowance with
    | zero => cases h
    | succ allowance =>
      have hdepth : a.tree.depth ≤ allowance := Nat.le_of_succ_le_succ h
      exact (ih hdepth).bind (.perform (.negation a.exact))
  | operation a op b iha ihb =>
    cases allowance with
    | zero => cases h
    | succ allowance =>
      have hdepth : max a.tree.depth b.tree.depth ≤ allowance := Nat.le_of_succ_le_succ h
      obtain ⟨ha, hb⟩ := Nat.max_le.mp hdepth
      exact (iha ha).bind ((ihb hb).bind (.perform (.binary op a.exact b.exact)))

theorem program_settles (limit : Int) (s : ScopeId) (a : Arithmetic) {allowance : Nat}
    (h : a.tree.depth ≤ allowance) (m : Machine) :
    Settles a.operations a.exact (Eval.program limit allowance s [.expr a.tree] m).1 := by
  have hblock : Computes (a.operations ++ []) a.exact
      (Eval.block (Eval.expression limit allowance) s [.expr a.tree]) :=
    (computes_tree limit s a h).bind (.pure a.exact)
  rw [List.append_nil] at hblock
  obtain ⟨result, hresult, hsettles⟩ := hblock m
  have hprogram : (Eval.program limit allowance s [.expr a.tree] m).1 =
      result.map Value.unwrap := by
    rw [Eval.program, Eval.bind_apply, Eval.endingCalls]
    simp only [hresult]
    cases result <;> rfl
  rw [hprogram]
  unfold Settles at hsettles ⊢
  split at hsettles
  · next hnone =>
    rw [hsettles]
    rfl
  · next failure hsome =>
    obtain ⟨f, rfl, hf⟩ := hsettles
    exact ⟨f, rfl, hf⟩

/-! ### Texts -/

def Answer.ofResult : Except Fault Value → Answer
  | .ok (.int v) => .number v
  | .ok v => .text v.display
  | .error f => .text f.message

/-- Calculates with limits of its own: on the nesting of the text, and on that of evaluations. -/
def calculateWithin (limit : Nat) (limits : Limits) (text : String) : Answer :=
  match parseWithin limit text with
  | .error e => .text e.report
  | .ok p => .ofResult (Eval.program limits.calls limits.nesting 0 p .new).1

theorem calculate_eq (text : String) :
    calculate text = calculateWithin nestingLimit .standard text := by
  unfold calculate calculateWithin runText Outcome.ofRun Machine.runText parse
  cases parseWithin nestingLimit text with
  | error e => rfl
  | ok p =>
    simp only [Machine.run]
    rcases Eval.program Limits.standard.calls Limits.standard.nesting 0 p .new with ⟨f | v, m⟩
    · rfl
    · cases v <;> rfl

theorem Settles.answer {a : Arithmetic} {result : Except Fault Value}
    (h : Settles a.operations a.exact result) : Answer.ofResult result = a.answer := by
  unfold Settles at h
  unfold Arithmetic.answer
  cases hfailure : a.operations.findSome? Operation.failure? with
  | none =>
    rw [hfailure] at h
    rw [h]
    rfl
  | some failure =>
    rw [hfailure] at h
    obtain ⟨f, rfl, rfl⟩ := h
    rfl

/-- Given too little allowance, a term is evaluated as with enough, or given up. -/
theorem program_answer (limits : Limits) (a : Arithmetic) :
    Answer.ofResult (Eval.program limits.calls limits.nesting 0 [.expr a.tree] .new).1 =
        a.answer ∨
      (limits.nesting < a.tree.depth ∧
        (Eval.program limits.calls limits.nesting 0 [.expr a.tree] .new).1 =
          .error .nestedTooDeep) := by
  by_cases hdepth : a.tree.depth ≤ limits.nesting
  · exact .inl (program_settles limits.calls 0 a hdepth .new).answer
  · have henough := program_settles limits.calls 0 a (Nat.le_refl _) .new
    rcases program_allowance limits.calls limits.nesting a.tree.depth 0 [.expr a.tree] .new with
      hsame | ⟨hless, hdeep⟩ | ⟨hless, -⟩
    · rw [← hsame] at henough
      exact .inl henough.answer
    · exact .inr ⟨hless, hdeep⟩
    · exact absurd (Nat.le_of_lt hless) hdepth

/-- **Calculation.**  A text that is an arithmetic term is answered with the exact number of the
    term, or with the first failure among its operations, whatever the limits on nesting are;
    unless the text has more tokens than the first limit and is refused as nested too deep, or
    the term is deeper than the second one and is given up. -/
theorem calculate_exact (text : String) (a : Arithmetic) (h : a.WrittenAs text) :
    calculate text = calculateWithin nestingLimit .standard text ∧
    ∀ (limit : Nat) (limits : Limits),
      calculateWithin limit limits text = a.answer ∨
      (limit < (scan text).length ∧
        ∃ e, parseWithin limit text = .error e ∧ e.error = .tooDeep) ∨
      (limits.nesting < a.tree.depth ∧ calculateWithin limit limits text =
        .text "stack overflow: expression is nested too deeply") := by
  refine ⟨calculate_eq text, fun limit limits => ?_⟩
  rcases h.denotes.parseWithin limit with hparse | htooDeep
  · have hcalculate : calculateWithin limit limits text =
        .ofResult (Eval.program limits.calls limits.nesting 0 [.expr a.tree] .new).1 := by
      rw [calculateWithin, hparse]
    rcases program_answer limits a with hanswer | ⟨hless, hdeep⟩
    · exact .inl (hcalculate.trans hanswer)
    · refine .inr (.inr ⟨hless, ?_⟩)
      rw [hcalculate, hdeep]
      rfl
  · exact .inr (.inl htooDeep)

/-- The least number, made from the greatest, has no quotient by -1. -/
theorem calculate_exact_least :
    (Arithmetic.operation (.operation (.negation (.number 9223372036854775807)) .minus (.number 1))
      .dividedBy (.negation (.number 1))).WrittenAs "(-9223372036854775807 - 1) / -1" ∧
    calculate "(-9223372036854775807 - 1) / -1" =
      .text "integer overflow: 9223372036854775808 does not fit in 64 bits" := by
  have htokens : (scan "(-9223372036854775807 - 1) / -1").map (·.token) =
      [⟨.leftParen, "("⟩, ⟨.minus, "-"⟩, ⟨.int, "9223372036854775807"⟩, ⟨.minus, "-"⟩,
        ⟨.int, "1"⟩, ⟨.rightParen, ")"⟩] ++
      ⟨.slash, "/"⟩ :: [⟨.minus, "-"⟩, ⟨.int, "1"⟩] := by decide +kernel
  have hone : Writes .primary [⟨.int, "1"⟩] (.number 1) :=
    .numeral (by decide +kernel) (by decide)
  have hgreatest : Writes .primary [⟨.int, "9223372036854775807"⟩]
      (.number 9223372036854775807) := .numeral (by decide +kernel) (by decide)
  have hleast : Writes .sum ([⟨.minus, "-"⟩, ⟨.int, "9223372036854775807"⟩] ++
      ⟨.minus, "-"⟩ :: [⟨.int, "1"⟩])
      (.operation (.negation (.number 9223372036854775807)) .minus (.number 1)) :=
    @Writes.operation .minus _ _ _ _ _ rfl (.product (.unary (.negation rfl (.primary hgreatest))))
      (.unary (.primary hone))
  have hwritten : Arithmetic.WrittenAs
      (.operation (.operation (.negation (.number 9223372036854775807)) .minus (.number 1))
        .dividedBy (.negation (.number 1))) "(-9223372036854775807 - 1) / -1" := by
    rw [Arithmetic.WrittenAs, htokens]
    have hgroup := @Writes.group ⟨.leftParen, "("⟩ ⟨.rightParen, ")"⟩ _ _ rfl hleast rfl
    exact .product (@Writes.operation .dividedBy _ _ _ _ _ rfl (.unary (.primary hgroup))
      (.negation rfl (.primary hone)))
  obtain ⟨hcalculate, hanswer⟩ := calculate_exact _ _ hwritten
  refine ⟨hwritten, hcalculate.trans ?_⟩
  rcases hanswer nestingLimit .standard with hanswer | ⟨hlong, -⟩ | ⟨hdeep, -⟩
  · rw [hanswer]
    decide +kernel
  · rw [← List.length_map, htokens] at hlong
    exact absurd hlong (by decide)
  · exact absurd hdeep (by decide)

end Treewalk
