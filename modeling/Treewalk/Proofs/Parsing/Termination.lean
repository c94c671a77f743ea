/-
  Treewalk/Proofs/Parsing/Termination.lean
  ========================================
  **Parsing comes to an end**, with no more calls active at a time than there
  are tokens.  A call only makes calls on fewer tokens than it was made on
  itself, so the induction is on the number of tokens, for all numbers of calls
  that are active around it.
-/
import Treewalk.Proofs.Parsing.Following
import Treewalk.Proofs.Parsing.Progress
import Treewalk.Proofs.Scanning.Layout

namespace Treewalk

open Parsing

namespace Script

/-! ### Pieces -/

/-- With so many calls active, calls on fewer tokens than `n` end, and there are at most `n` calls
    one inside the other then.  The opening brace of a block counts as one of its tokens. -/
structure Nested (active n : Nat) : Prop where
  expression : ∀ p v, v.length < n →
    Ends active n (.expression p) (fun limit => Parser.expression (limit - active) p) v
  block : ∀ v, v.length + 1 < n →
    Ends active n .block (fun limit => Parser.block (limit - active)) v

namespace Nested

variable {active n : Nat} (h : Nested active n) {u : List Token}

include h

theorem expressionThen {α : Type} {next : Expr → Script α} {q : Nat → Expr → Parser α}
    (p : Precedence) (hu : u.length < n)
    (hnext : ∀ e v, v.length < u.length → Ends active n (next e) (fun limit => q limit e) v) :
    Ends active n (.expression p >>= next)
      (fun limit => Parser.expression (limit - active) p >>= q limit) u :=
  (h.expression p u hu).andThen (fun _ => Parser.shrinking_expression _ p) hnext

theorem group (hu : u.length < n) :
    Ends active n .group (fun limit => Parser.group (Parser.expression (limit - active))) u :=
  h.expressionThen _ hu fun e _ _ => .skipThen _ fun _ _ => .pure e

theorem choice (hu : u.length < n) :
    Ends active n .choice
      (fun limit => Parser.choice (Parser.expression (limit - active))
        (Parser.block (limit - active))) u := by
  refine .skipThen _ fun v₁ h₁ => h.expressionThen _ (by omega) fun test v₂ h₂ => ?_
  refine .skipThen _ fun v₃ h₃ => .skipThen _ fun v₄ h₄ => ?_
  refine (h.block v₄ (by omega)).andThen (fun _ => Parser.shrinking_block _) fun body v₅ h₅ => ?_
  refine .ifAccept _ (.skipThen _ fun v₆ h₆ => ?_) (.pure _)
  rw [List.length_tail] at h₆
  exact (h.block v₆ (by omega)).bind fun _ other _ _ => .pure _

theorem function (hu : u.length < n) :
    Ends active n .function (fun limit => Parser.function (Parser.block (limit - active))) u := by
  refine .skipThen _ fun v₁ h₁ => ?_
  refine Ends.andThen (.commaSeparated (fun _ => Parser.shrinking_expect _) fun v _ => .expect _)
    (fun _ => Parser.shrinking_commaSeparated (Parser.shrinking_expect _)) fun params v₂ h₂ => ?_
  refine .skipThen _ fun v₃ h₃ => ?_
  exact (h.block v₃ (by omega)).bind fun _ body _ _ => .pure _

theorem operand (hu : u.length ≤ n) :
    Ends active n .operand
      (fun limit => Parser.operand (Parser.expression (limit - active))
        (Parser.block (limit - active))) u := by
  cases u with
  | nil =>
    exact .read rfl (.lift (Parser.shallow_fail (e := .noOperand .eof) (by decide))) fun _ => rfl
  | cons t u =>
    have hu : u.length < n := hu
    let parser limit := Parser.operand (Parser.expression (limit - active))
      (Parser.block (limit - active))
    have hread : ∀ {w : Script Expr} {form : Nat → Parser Expr}, Ends active n w form u →
        (∀ limit, parser limit (t :: u) = form limit u) →
        Ends active n (do Script.lift Parser.advance; w) parser (t :: u) :=
      fun hw hform => .read rfl hw hform
    have hrefuse : ∀ {e : SyntaxError}, e ≠ .tooDeep →
        (∀ limit, parser limit (t :: u) = Parser.fail e (t :: u)) →
        Ends active n (.lift (Parser.fail e)) parser (t :: u) :=
      fun he hfail => (Ends.lift (Parser.shallow_fail he)).congr fun limit _ => hfail limit
    refine .read (v := t :: u) rfl ?_ fun _ => rfl
    cases hk : t.kind with
    | ident | trueWord | falseWord =>
      simp only [hk]
      exact hread (.pure _) fun limit => by simp only [parser, Parser.operand, hk]; rfl
    | int =>
      simp only [hk]
      cases hv : Number.ofNumeral? t.text.toList with
      | some value =>
        exact hread (.pure _) fun limit => by simp only [parser, Parser.operand, hk, hv]; rfl
      | none =>
        exact hrefuse (by simp) fun limit => by simp only [parser, Parser.operand, hk, hv]
    | bang | minus =>
      simp only [hk]
      exact hread ((h.expression _ u hu).map _) fun limit => by
        simp only [parser, Parser.operand, hk]
    | leftParen =>
      simp only [hk]
      exact hread (h.group hu) fun limit => by simp only [parser, Parser.operand, hk]
    | ifWord =>
      simp only [hk]
      exact hread (h.choice hu) fun limit => by simp only [parser, Parser.operand, hk]
    | fnWord =>
      simp only [hk]
      exact hread (h.function hu) fun limit => by simp only [parser, Parser.operand, hk]
    | _ =>
      simp only [hk]
      exact hrefuse (by simp) fun limit => by simp only [parser, Parser.operand, hk]

/-- The table of operators has an entry whenever it is asked for one. -/
theorem carryOn (p : Precedence) (left : Expr) (hu : u.length ≤ n) :
    Ends active n (.carryOn p left)
      (fun limit => Parser.carryOn (Parser.expression (limit - active)) p left) u := by
  by_cases hp : p < (Parser.kindOf u).precedence
  · cases u with
    | nil => exact absurd hp (Precedence.not_lt.mpr (Precedence.lowest_le p))
    | cons t u =>
      have hu : u.length < n := hu
      refine .read (v := t :: u) rfl ?_ fun _ => rfl
      rw [if_pos hp]
      rcases Parser.carryOn_cons left hp with ⟨hk, hread⟩ | ⟨hk, hread⟩
      · simp only [Parser.kindOf, hk]
        have hexpect : Parser.expect t.kind (t :: u) = .ok (t.text, u) := if_pos rfl
        exact .read hexpect
          ((h.expression _ u hu).map fun right => some (Expr.binary left t.text right))
          fun limit => hread _ u
      · simp only [Parser.kindOf, hk, Kind.continuation?]
        have hargs : Ends active n (.commaSeparated (.expression .lowest)) (fun limit =>
            Parser.commaSeparated (Parser.expression (limit - active) .lowest)) u :=
          .commaSeparated (fun _ => Parser.shrinking_expression _ _) fun v hv =>
            h.expression _ v (by omega)
        exact .read (b := ()) (v := u) rfl (hargs.map fun args => some (Expr.call left args))
          fun limit => hread _ u
  · refine .read (v := u) rfl ?_ fun _ => rfl
    rw [if_neg hp]
    exact (Ends.pure none).congr fun limit _ => Parser.carryOn_stop (Precedence.not_lt.mp hp)

theorem climb (p : Precedence) (left : Expr) (hu : u.length ≤ n) :
    Ends active n (.climb p left)
      (fun limit => Parser.climb (Parser.expression (limit - active)) p left) u :=
  .repeated (fun _ => Parser.reading_carryOn (Parser.shrinking_expression _) p)
    (fun left v hv => h.carryOn p left (by omega)) left

theorem definition (hu : u.length < n) :
    Ends active n .definition
      (fun limit => Parser.definition (Parser.expression (limit - active))) u := by
  refine (Ends.expect _).andThen (fun _ => Parser.shrinking_expect _) fun name v₁ h₁ => ?_
  refine .skipThen _ fun v₂ h₂ => h.expressionThen _ (by omega) fun value v₃ h₃ => ?_
  exact .skipThen _ fun _ _ => .pure _

theorem returned (hu : u.length < n) :
    Ends active n .returned (fun limit => Parser.returned (Parser.expression (limit - active)))
      u :=
  .ifAccept _ (.pure _) (h.expressionThen _ hu fun _ _ _ => .skipThen _ fun _ _ => .pure _)

theorem expressionStatement (hu : u.length < n) :
    Ends active n .expressionStatement
      (fun limit => Parser.expressionStatement (Parser.expression (limit - active))) u :=
  h.expressionThen _ hu fun _ _ _ =>
    (Ends.lift ((Parser.shallow_accept _).map _)).bind fun _ _ _ _ => .pure _

theorem statement (hu : u.length < n) :
    Ends active n .statement
      (fun limit => Parser.statement (Parser.expression (limit - active))
        (Parser.block (limit - active))) u := by
  refine .read (v := u) rfl ?_ fun _ => rfl
  have htail : u.tail.length < n := by
    rw [List.length_tail]
    omega
  cases hk : Parser.kindOf u with
  | letWord =>
    exact .read rfl ((h.definition htail).map some) fun limit => by
      rw [Parser.statement_apply, hk]
  | returnWord =>
    exact .read rfl ((h.returned htail).map some) fun limit => by
      rw [Parser.statement_apply, hk]
  | leftBrace =>
    have hlength := (Parser.starts_of_kindOf (by decide) hk).length
    have hblock := h.block u.tail (by omega)
    exact .read rfl (hblock.map fun body => some (Stmt.block body)) fun limit => by
      rw [Parser.statement_apply, hk]
  | semicolon =>
    exact .read rfl (.pure none) fun limit => by
      rw [Parser.statement_apply, hk]
      rfl
  | _ =>
    exact ((h.expressionStatement hu).map some).congr fun limit _ => by
      rw [Parser.statement_apply, hk]

theorem nextStatement (isEnd : Kind → Bool) (reversed : List Stmt) (hu : u.length < n) :
    Ends active n (.nextStatement isEnd reversed)
      (fun limit => Parser.nextStatement (Parser.expression (limit - active))
        (Parser.block (limit - active)) isEnd reversed) u := by
  refine .read (v := u) rfl ?_ fun _ => rfl
  cases hend : isEnd (Parser.kindOf u) with
  | true =>
    exact (Ends.pure none).congr fun limit _ => Parser.nextStatement_none.mpr ⟨hend, rfl⟩
  | false =>
    exact ((h.statement hu).map fun o => some (o.toList ++ reversed)).congr fun limit _ =>
      Parser.nextStatement_apply reversed hend

theorem statements (isEnd : Kind → Bool) (hu : u.length < n) :
    Ends active n (.statements isEnd)
      (fun limit => Parser.statements (Parser.expression (limit - active))
        (Parser.block (limit - active)) isEnd) u :=
  Ends.bind (.repeated (fun _ => Parser.reading_nextStatement (Parser.shrinking_expression _)
    (Parser.shrinking_block _) isEnd) (fun reversed v hv => h.nextStatement isEnd reversed
      (by omega)) []) fun _ reversed _ _ => .pure _

theorem blockBody (hu : u.length < n) :
    Ends active n .blockBody
      (fun limit => Parser.blockBody (Parser.expression (limit - active))
        (Parser.block (limit - active))) u :=
  (h.statements _ hu).bind fun _ _ _ _ => .skipThen _ fun _ _ => .pure _

end Nested

/-! ### All calls -/

theorem sub_eq_succ {active limit : Nat} (h : active + 1 ≤ limit) :
    limit - active = limit - (active + 1) + 1 := by
  omega

/-- However many calls are active, a call ends on any number of tokens. -/
theorem nested (active n : Nat) : Nested active n := by
  induction n using Nat.strongRecOn generalizing active with
  | ind n ih =>
    -- inside a call, the calls are on fewer tokens, and one more is active around them
    constructor
    · intro p v hv
      have h := ih v.length hv (active + 1)
      have hshrinking : ∀ limit, Parser.Shrinking (Parser.operand
          (Parser.expression (limit - (active + 1))) (Parser.block (limit - (active + 1)))) :=
        fun limit _ _ _ hread => (Parser.operand_ok.mp hread).length_lt
          (Parser.shrinking_expression _) (Parser.shrinking_block _)
      have hbody : Ends (active + 1) v.length (Goal.expression p).script
          (fun limit => Parser.expression (limit - active) p) v := by
        refine ((h.operand (Nat.le_refl _)).andThen hshrinking fun left r hr =>
          h.climb p left (Nat.le_of_lt hr)).congr fun limit hlimit => ?_
        rw [sub_eq_succ hlimit]
        rfl
      exact (Ends.call (q := fun k => Parser.expression k p) (fun _ => rfl) hbody).mono hv
    · intro v hv
      have h := ih (v.length + 1) hv (active + 1)
      have hbody : Ends (active + 1) (v.length + 1) Goal.block.script
          (fun limit => Parser.block (limit - active)) v := by
        refine (h.blockBody (Nat.lt_succ_self _)).congr fun limit hlimit => ?_
        rw [sub_eq_succ hlimit]
        rfl
      exact (Ends.call (q := Parser.block) (fun _ => rfl) hbody).mono hv

theorem ends_program (u : List Token) :
    Ends 0 (u.length + 1) .program (fun limit => Parser.program limit) u :=
  (nested 0 (u.length + 1)).statements _ (Nat.lt_succ_self _)

end Script

/-! ### Texts -/

theorem parseWithin_eq (limit : Nat) (text : String) :
    parseWithin limit text =
      ((·.1) <$> Parser.program limit ((scan text).map (·.token))).mapError
        (·.locate text (scan text)) := by
  rw [parseWithin, readText]
  cases Parser.program limit ((scan text).map (·.token)) <;> rfl

theorem exists_path (text : String) :
    ∃ (result : Except Failure Program) (deepest : Nat),
      Path (.start text) deepest (.ended (result.mapError .refused)) ∧
      deepest ≤ (tokenize text).length ∧
      (∀ r, result ≠ .error ⟨.tooDeep, r⟩) ∧
      ∀ limit,
        (deepest ≤ limit →
          parseWithin limit text = result.mapError (·.locate text (scan text))) ∧
        (limit < deepest → ∃ e, parseWithin limit text = .error e ∧ e.error = .tooDeep) := by
  obtain ⟨result, deepest, hdeepest, hfollows⟩ := Script.ends_program ((scan text).map (·.token))
  refine ⟨(·.1) <$> result, deepest, ?_, ?_, ?_, fun limit => ⟨fun hlimit => ?_, fun hlimit => ?_⟩⟩
  · have hpath := hfollows.path Calls.none .done rfl
    rw [Script.bind_done] at hpath
    rcases result with f | ⟨p, r⟩
    · exact hpath
    · have hanswer : Path (.active Calls.none (.done p) r) (max 0 0) (.ended (.ok p)) :=
        .head (s := .active Calls.none (.done p) r) .refl
      have hwhole := hpath.trans hanswer
      rwa [Nat.max_self, Nat.max_eq_left (Nat.zero_le _)] at hwhole
  · rw [tokenize_eq, List.length_append]
    rw [List.length_map] at hdeepest
    exact Nat.le_trans hdeepest (Nat.le_of_eq (Nat.zero_add _))
  · intro r hr
    rcases result with f | ⟨p, v⟩ <;> cases hr
    exact hfollows.other r rfl
  · rw [parseWithin_eq, hfollows.within limit hlimit]
  · obtain ⟨r, hr⟩ := hfollows.beyond limit (Nat.zero_le _) hlimit
    exact ⟨Failure.locate ⟨.tooDeep, r⟩ text (scan text), by rw [parseWithin_eq, hr]; rfl, rfl⟩

/-- **Parsing comes to an end**, whatever the text, although nothing limits it.

    It comes to a program or to a failure of the parser, and never to an entry that is missing in
    the table of operators.  The greatest number of calls for expressions and blocks that are
    active at a time is at most the number of tokens, of which the end token is one.

    A limit on nesting decides nothing but this: if it is not below the number of calls, what
    comes of the text is the same, and if it is, the text is nested too deep.  So a text that has
    no more tokens than the limit is never nested too deep. -/
theorem parsing_ends (text : String) :
    ∃ (result : Except Failure Program) (deepest : Nat),
      (∃ n, Parsing.step^[n] (.start text) = .ended (result.mapError .refused)) ∧
      (∀ n, (Parsing.step^[n] (.start text)).isStuck = false) ∧
      IsGreatest (Set.range fun n => (Parsing.step^[n] (.start text)).depth) deepest ∧
      deepest ≤ (tokenize text).length ∧
      (∀ limit,
        (deepest ≤ limit →
          parseWithin limit text = result.mapError (·.locate text (scan text))) ∧
        (limit < deepest → ∃ e, parseWithin limit text = .error e ∧ e.error = .tooDeep)) ∧
      ∀ limit e, (tokenize text).length ≤ limit → parseWithin limit text = .error e →
        e.error ≠ .tooDeep := by
  obtain ⟨result, deepest, hpath, hdeepest, hother, hlimits⟩ := exists_path text
  obtain ⟨n, hn⟩ := hpath.exists_iterate
  refine ⟨result, deepest, ⟨n, hn⟩, fun m => ?_, hpath.isGreatest, hdeepest, hlimits, ?_⟩
  · by_contra hstuck
    obtain ⟨kind, hkind⟩ := missing_of_isStuck (Bool.not_eq_false _ ▸ hstuck)
    have hmissing : step^[m + 1] (.start text) = .ended (.error (.missing kind)) := by
      rw [Function.iterate_succ_apply', hkind]
    have hresult := ended_unique hn hmissing
    cases result <;> cases hresult
  · intro limit e hlimit he hdeep
    rw [(hlimits limit).1 (Nat.le_trans hdeepest hlimit)] at he
    rcases result with ⟨error, r⟩ | p <;> cases he
    obtain rfl : error = .tooDeep := hdeep
    exact hother r rfl

-- both parentheses and the end token are read by a call of their own
example : (Parsing.step^[10] (.start "((")).depth = (tokenize "((").length := by decide +kernel

end Treewalk
