/-
  Treewalk/Proofs/Parsing/Climbing.lean
  =====================================
  **An expression stops where its precedence says, and can be carried on.**
  What is read at a loose precedence is what is read at a tighter one, carried
  on from there.  The reason is that a step of the climbing loop does not
  depend on the precedence that it was asked for, once it is taken.

  The same next token is looked at by all expressions that are being read, each
  with a precedence of its own.  What follows may be replaced as long as it
  stops the loosest of them.  This is not so for the precedence of calls: an
  operand behind a unary operator is read at a looser one.
-/
import Mathlib.Control.Monad.Basic
import Treewalk.Parser.Source
import Treewalk.Proofs.Parsing.Resumption

namespace Treewalk

namespace Parser

/-! ### Precedences -/

section Climbing

variable {expr : Precedence → Parser Expr} {p q : Precedence}

/-- Where a token binds tighter than both precedences, a step is the same for both. -/
theorem carryOn_congr (hpq : p ≤ q) (left : Expr) {u : List Token}
    (hq : q < (kindOf u).precedence) : carryOn expr p left u = carryOn expr q left u := by
  have hp : p < (kindOf u).precedence := Nat.lt_of_le_of_lt hpq hq
  cases u with
  | nil => exact absurd (Precedence.lowest_le q) (Precedence.not_le.mpr hq)
  | cons t u =>
    rw [kindOf] at hp hq
    simp only [carryOn, hp, hq, if_true]

/-- Steps at a precedence are steps at every looser one. -/
theorem Runs.loosen (hpq : p ≤ q) {left e : Expr} {u v : List Token}
    (h : Runs (carryOn expr q) left u e v) : Runs (carryOn expr p) left u e v := by
  induction h with
  | refl => exact .refl
  | head hstep _ ih =>
    obtain ⟨t, w, rfl, hq, -⟩ := carryOn_some.mp hstep
    exact .head ((carryOn_congr hpq _ (u := t :: w) hq).trans hstep) ih

/-- To climb up to a precedence is to climb up to a tighter one first, and to go on from there. -/
theorem climb_resumed (hexpr : ∀ p, Shrinking (expr p)) (hpq : p ≤ q) (left : Expr)
    (u : List Token) :
    climb expr p left u = (climb expr q left >>= climb expr p) u := by
  obtain ⟨e, v, hruns, hend⟩ := exists_runs (reading_carryOn hexpr q) left u
  have hloose : climb expr p left u = climb expr p e v :=
    (hruns.loosen hpq).loop_eq (reading_carryOn hexpr p)
  have htight : climb expr q left u = climb expr q e v :=
    hruns.loop_eq (reading_carryOn hexpr q)
  rw [bind_apply, hloose, htight]
  -- the tighter loop is over: a token stops it, or its step fails
  rcases hstep : carryOn expr q e v with f | ⟨_ | c, w⟩
  · have hq : q < (kindOf v).precedence := by
      refine Precedence.not_le.mp fun hstop => ?_
      rw [carryOn_stop hstop] at hstep
      cases hstep
    have hfail : climb expr q e v = .error f :=
      (loop_error (reading_carryOn hexpr q)).mpr ⟨e, v, .refl, hstep⟩
    rw [hfail]
    exact (loop_error (reading_carryOn hexpr p)).mpr
      ⟨e, v, .refl, (carryOn_congr hpq e hq).trans hstep⟩
  · obtain ⟨-, rfl⟩ := carryOn_none.mp hstep
    have hstop : climb expr q e w = .ok (e, w) :=
      (loop_ok (reading_carryOn hexpr q)).mpr ⟨w, .refl, hstep⟩
    rw [hstop]
  · exact absurd hstep (hend c w)

end Climbing

/-! ### Expressions -/

theorem expression_bind_climb {p q : Precedence} (hpq : p ≤ q) (limit : Nat) (u : List Token) :
    expression (limit + 1) p u =
      (expression (limit + 1) q >>= climb (expression limit) p) u := by
  have hclimb := climb_resumed (shrinking_expression limit) hpq
  show (operand (expression limit) (block limit) >>= climb (expression limit) p) u =
    ((operand (expression limit) (block limit) >>= climb (expression limit) q) >>=
      climb (expression limit) p) u
  rw [bind_assoc, bind_apply, bind_apply]
  rcases operand (expression limit) (block limit) u with f | ⟨left, v⟩
  · rfl
  · exact hclimb left v

/-- The next token does not bind tighter, and at least one token has been read. -/
theorem expression_stops {limit : Nat} {q : Precedence} {u r : List Token} {e : Expr}
    (h : expression limit q u = .ok (e, r)) :
    (kindOf r).precedence ≤ q ∧ ∃ b t, u = b ++ t :: r := by
  constructor
  · cases limit with
    | zero => cases h
    | succ limit =>
      obtain ⟨-, -, -, -, hstop⟩ := expression_ok.mp h
      exact hstop
  · obtain ⟨b, rfl, -⟩ := (local_expression_block limit).1 q u (.ok e) r h
    rcases List.eq_nil_or_concat b with rfl | ⟨b, t, rfl⟩
    · exact absurd (shrinking_expression limit q _ e r h) (Nat.lt_irrefl _)
    · exact ⟨b, t, by rw [List.concat_append]⟩

/-- What follows may be replaced by anything that stops the expression too. -/
theorem expression_followed {limit : Nat} {p : Precedence} (hp : p ≤ .unary) {b r : List Token}
    {e : Expr} (h : expression limit p (b ++ r) = .ok (e, r)) {t : List Token}
    (hstop : (kindOf t).precedence ≤ p) (helse : kindOf t ≠ .elseWord) :
    expression limit p (b ++ t) = .ok (e, t) := by
  obtain ⟨b', hb, hsame⟩ := continues_expression limit hp (b ++ r) e r h
  rw [List.append_cancel_right hb]
  exact hsame t (.inr ⟨hstop, helse⟩)

end Parser

/-! ### Expressions at the front of a text -/

/-- What is said about an expression of a text: the last token read for it, the next one, and the
    tokens that the parser left. -/
theorem parseExpression_ok {q : Precedence} {text : String} {x : Excerpt}
    (h : parseExpression q text = .ok x) :
    ∃ before rest, scan text = before ++ x.last :: rest ∧
      x.next = rest.headD ⟨.eof, text.length⟩ ∧
      Parser.expression nestingLimit q ((scan text).map (·.token)) =
        .ok (x.tree, rest.map (·.token)) := by
  simp only [parseExpression, readText] at h
  cases hread : Parser.expression nestingLimit q ((scan text).map (·.token)) with
  | error f =>
    rw [hread] at h
    cases h
  | ok result =>
    obtain ⟨tree, r⟩ := result
    obtain ⟨-, b, t, hu⟩ := Parser.expression_stops hread
    obtain ⟨before, behind, hscan, -, hbehind⟩ := List.map_eq_append_iff.mp hu
    obtain ⟨last, rest, rfl, -, rfl⟩ := List.map_eq_cons_iff.mp hbehind
    have hcount : (scan text).length - (rest.map (·.token)).length = before.length + 1 := by
      rw [hscan, List.length_append, List.length_cons, List.length_map]
      omega
    rw [hread] at h
    have hx : x = ⟨tree, ((scan text).take (before.length + 1)).getLastD ⟨.eof, text.length⟩,
        ((scan text).drop (before.length + 1)).headD ⟨.eof, text.length⟩⟩ := by
      rw [← hcount]
      exact (Except.ok.inj h).symm
    have hlength : (before ++ [last]).length = before.length + 1 := List.length_append
    rw [hscan, List.append_cons, List.take_left' hlength, List.drop_left' hlength,
      List.getLastD_concat] at hx
    rw [hx]
    exact ⟨before, rest, hscan, rfl, rfl⟩

/-- **Resumption.**  An expression that is read at a precedence leaves a token that does not bind
    tighter, and has read the tokens in front of it, at least one.  Carried on at a looser
    precedence from there, it is what is read at that one from the start, errors included.  Unless
    the precedence is that of calls, other tokens may stand behind what was read, if the first
    stops the expression too and is not `else`. -/
theorem expression_resumed {p q : Precedence} (hpq : p ≤ q) :
    (∀ limit u e r, Parser.expression limit q u = .ok (e, r) →
      (Parser.kindOf r).precedence ≤ q ∧ ∃ b t, u = b ++ t :: r) ∧
    (∀ text x, parseExpression q text = .ok x →
      x.next.token.kind.precedence ≤ q ∧
      ∃ before rest, scan text = before ++ x.last :: rest ∧
        x.next = rest.headD ⟨.eof, text.length⟩ ∧
        Parser.expression nestingLimit q ((scan text).map (·.token)) =
          .ok (x.tree, rest.map (·.token))) ∧
    (∀ limit u, Parser.expression (limit + 1) p u =
      (Parser.expression (limit + 1) q >>= Parser.climb (Parser.expression limit) p) u) ∧
    (p ≤ .unary → ∀ limit b r e, Parser.expression limit p (b ++ r) = .ok (e, r) →
      ∀ t, (Parser.kindOf t).precedence ≤ p → Parser.kindOf t ≠ .elseWord →
        Parser.expression limit p (b ++ t) = .ok (e, t)) := by
  refine ⟨fun limit u e r => Parser.expression_stops, fun text x hx => ?_,
    Parser.expression_bind_climb hpq, fun hp limit b r e h t hstop helse =>
      Parser.expression_followed hp h hstop helse⟩
  obtain ⟨before, rest, hscan, hnext, hread⟩ := parseExpression_ok hx
  obtain ⟨hstop, -⟩ := Parser.expression_stops hread
  refine ⟨?_, before, rest, hscan, hnext, hread⟩
  rw [hnext]
  cases rest with
  | nil => exact hstop
  | cons t rest => exact hstop

theorem expression_resumed_product :
    ∃ x before rest, parseExpression .product "a * b + c" = .ok x ∧
      scan "a * b + c" = before ++ x.last :: rest ∧
      (∀ limit u, Parser.expression (limit + 1) .sum u =
        (Parser.expression (limit + 1) .product >>=
          Parser.climb (Parser.expression limit) .sum) u) ∧
      Parser.expression 2 .sum [⟨.ident, "a"⟩, ⟨.asterisk, "*"⟩, ⟨.ident, "b"⟩,
        ⟨.rightParen, ")"⟩] =
        .ok (.binary (.ident "a") "*" (.ident "b"), [⟨.rightParen, ")"⟩]) := by
  have hparse : parseExpression .product "a * b + c" =
      .ok ⟨.ident "a", ⟨⟨.ident, "a"⟩, 0⟩, ⟨⟨.asterisk, "*"⟩, 2⟩⟩ := by decide +kernel
  have hread : Parser.expression 2 .sum ([⟨.ident, "a"⟩, ⟨.asterisk, "*"⟩, ⟨.ident, "b"⟩] ++
      [⟨.plus, "+"⟩, ⟨.ident, "c"⟩]) =
        .ok (.binary (.ident "a") "*" (.ident "b"), [⟨.plus, "+"⟩, ⟨.ident, "c"⟩]) := rfl
  obtain ⟨-, htext, hresumed, hfollowed⟩ :=
    expression_resumed (p := .sum) (q := .product) (by decide)
  obtain ⟨-, before, rest, hscan, -⟩ := htext _ _ hparse
  exact ⟨_, before, rest, hparse, hscan, hresumed,
    hfollowed (by decide) 2 _ _ _ hread [⟨.rightParen, ")"⟩] (by decide) (by decide)⟩

-- Behind `-a`, read at the precedence of calls, a call is not replaced by the end of the tokens.
example : Parser.expression 2 .call [⟨.minus, "-"⟩, ⟨.ident, "a"⟩] =
      .ok (.unary "-" (.ident "a"), []) ∧
    Parser.expression 2 .call [⟨.minus, "-"⟩, ⟨.ident, "a"⟩, ⟨.leftParen, "("⟩,
        ⟨.rightParen, ")"⟩] =
      .ok (.unary "-" (.call (.ident "a") []), []) := ⟨rfl, rfl⟩

end Treewalk
