/-
  Treewalk/Proofs/Parsing/Pieces.lean
  ===================================
  **When the pieces of the parser succeed**: what each of them has read, in
  terms of the parsers for expressions and blocks that it is given.
-/
import Treewalk.Parser.Expression
import Treewalk.Proofs.Parsing.Outcome
import Treewalk.Proofs.Parsing.Strata

namespace Treewalk.Parser

section Pieces

variable {expr : Precedence → Parser Expr} {block : Parser Block}

/-! ### Expressions -/

theorem group_ok {u r : List Token} {e : Expr} :
    group expr u = .ok (e, r) ↔ ∃ v, expr .lowest u = .ok (e, v) ∧ Starts .rightParen v r := by
  simp only [group, bind_ok, pure_ok, discard_expect_ok]
  constructor
  · rintro ⟨e, v, he, -, w, hclose, rfl, rfl⟩
    exact ⟨v, he, hclose⟩
  · rintro ⟨v, he, hclose⟩
    exact ⟨e, v, he, (), r, hclose, rfl, rfl⟩

theorem function_ok {u r : List Token} {e : Expr} :
    function block u = .ok (e, r) ↔
      ∃ u₁ params u₂ u₃ body, Starts .leftParen u u₁ ∧
        commaSeparated (expect .ident) u₁ = .ok (params, u₂) ∧ Starts .leftBrace u₂ u₃ ∧
        block u₃ = .ok (body, r) ∧ e = .fn params body := by
  simp only [function, bind_ok, pure_ok, discard_expect_ok]
  constructor
  · rintro ⟨-, u₁, hopen, params, u₂, hparams, -, u₃, hbrace, body, v, hbody, rfl, rfl⟩
    exact ⟨u₁, params, u₂, u₃, body, hopen, hparams, hbrace, hbody, rfl⟩
  · rintro ⟨u₁, params, u₂, u₃, body, hopen, hparams, hbrace, hbody, rfl⟩
    exact ⟨(), u₁, hopen, params, u₂, hparams, (), u₃, hbrace, body, r, hbody, rfl, rfl⟩

def OtherwiseRead (block : Parser Block) (u : List Token) (other : Option Block)
    (r : List Token) : Prop :=
  (kindOf u ≠ .elseWord ∧ r = u ∧ other = none) ∨
    ∃ v w body, Starts .elseWord u v ∧ Starts .leftBrace v w ∧ block w = .ok (body, r) ∧
      other = some body

theorem choice_ok {u r : List Token} {e : Expr} :
    choice expr block u = .ok (e, r) ↔
      ∃ u₁ test u₂ u₃ u₄ body u₅ other, Starts .leftParen u u₁ ∧
        expr .lowest u₁ = .ok (test, u₂) ∧ Starts .rightParen u₂ u₃ ∧ Starts .leftBrace u₃ u₄ ∧
        block u₄ = .ok (body, u₅) ∧ OtherwiseRead block u₅ other r ∧
        e = .cond test body other := by
  simp only [choice, bind_ok, discard_expect_ok, accept_ok (k := .elseWord) (by decide)]
  constructor
  · rintro ⟨-, u₁, hopen, test, u₂, htest, -, u₃, hclose, -, u₄, hbrace, body, u₅, hbody, b, v,
      (⟨rfl, helse⟩ | ⟨rfl, hno, rfl⟩), h⟩
    · simp only [if_true, bind_ok, pure_ok, discard_expect_ok] at h
      obtain ⟨-, w, hbrace', other, z, hother, rfl, rfl⟩ := h
      exact ⟨u₁, test, u₂, u₃, u₄, body, u₅, some other, hopen, htest, hclose, hbrace, hbody,
        .inr ⟨v, w, other, helse, hbrace', hother, rfl⟩, rfl⟩
    · simp only [Bool.false_eq_true, if_false, pure_ok] at h
      obtain ⟨rfl, rfl⟩ := h
      exact ⟨u₁, test, u₂, u₃, u₄, body, r, none, hopen, htest, hclose, hbrace, hbody,
        .inl ⟨hno, rfl, rfl⟩, rfl⟩
  · rintro ⟨u₁, test, u₂, u₃, u₄, body, u₅, other, hopen, htest, hclose, hbrace, hbody,
      hother, rfl⟩
    refine ⟨(), u₁, hopen, test, u₂, htest, (), u₃, hclose, (), u₄, hbrace, body, u₅, hbody, ?_⟩
    rcases hother with ⟨hno, rfl, rfl⟩ | ⟨v, w, body', helse, hbrace', hbody', rfl⟩
    · exact ⟨false, r, .inr ⟨rfl, hno, rfl⟩, by simp [pure_ok]⟩
    · refine ⟨true, v, .inl ⟨rfl, helse⟩, ?_⟩
      simp only [if_true, bind_ok, pure_ok, discard_expect_ok]
      exact ⟨(), w, hbrace', body', r, hbody', rfl, rfl⟩

/-- An operand as it is read: one way for each kind of token that starts one. -/
inductive OperandRead (expr : Precedence → Parser Expr) (block : Parser Block) :
    List Token → Expr → List Token → Prop where
  | ident {t r} : t.kind = .ident → OperandRead expr block (t :: r) (.ident t.text) r
  | int {t r v} : t.kind = .int → Number.ofNumeral? t.text.toList = some v →
      OperandRead expr block (t :: r) (.int v) r
  | yes {t r} : t.kind = .trueWord → OperandRead expr block (t :: r) (.bool true) r
  | no {t r} : t.kind = .falseWord → OperandRead expr block (t :: r) (.bool false) r
  | unary {t u r e} : t.kind.isUnary = true → expr .unary u = .ok (e, r) →
      OperandRead expr block (t :: u) (.unary t.text e) r
  | group {t u r e} : t.kind = .leftParen → group expr u = .ok (e, r) →
      OperandRead expr block (t :: u) e r
  | choice {t u r e} : t.kind = .ifWord → choice expr block u = .ok (e, r) →
      OperandRead expr block (t :: u) e r
  | function {t u r e} : t.kind = .fnWord → function block u = .ok (e, r) →
      OperandRead expr block (t :: u) e r

theorem operand_ok {u r : List Token} {e : Expr} :
    operand expr block u = .ok (e, r) ↔ OperandRead expr block u e r := by
  constructor
  · intro h
    cases u with
    | nil => cases h
    | cons t u =>
      have hunary : t.kind.isUnary = true → (Expr.unary t.text <$> expr .unary) u = .ok (e, r) →
          OperandRead expr block (t :: u) e r := by
        intro hk h
        obtain ⟨e', he, rfl⟩ := map_ok.mp h
        exact .unary hk he
      simp only [operand] at h
      split at h
      · next hk =>
        cases h
        exact .ident hk
      · next hk =>
        split at h
        · next v hv =>
          cases h
          exact .int hk hv
        · cases h
      · next hk =>
        cases h
        exact .yes hk
      · next hk =>
        cases h
        exact .no hk
      · next hk => exact hunary (by rw [hk]; rfl) h
      · next hk => exact hunary (by rw [hk]; rfl) h
      · next hk => exact .group hk h
      · next hk => exact .choice hk h
      · next hk => exact .function hk h
      · cases h
  · intro h
    cases h with
    | ident hk => simp [operand, hk]
    | int hk hv => simp [operand, hk, hv]
    | yes hk => simp [operand, hk]
    | no hk => simp [operand, hk]
    | @unary t u r e hk he =>
      have hmap := map_ok.mpr ⟨e, he, (rfl : Expr.unary t.text e = _)⟩
      cases hkind : t.kind <;> simp_all [operand, Kind.isUnary]
    | group hk he => simp [operand, hk, he]
    | choice hk he => simp [operand, hk, he]
    | function hk he => simp [operand, hk, he]

/-- A token that binds tighter than some precedence carries an expression on, in a way that does
    not depend on the parser for what follows. -/
theorem carryOn_cons {p : Precedence} (left : Expr) {t : Token} (hp : p < t.kind.precedence) :
    (t.kind.continuation? = some .operator ∧ ∀ expr u, carryOn expr p left (t :: u) =
        ((fun right => some (.binary left t.text right)) <$> expr t.kind.precedence) u) ∨
      (t.kind = .leftParen ∧ ∀ expr u, carryOn expr p left (t :: u) =
        ((fun args => some (.call left args)) <$> commaSeparated (expr .lowest)) u) := by
  cases hk : t.kind.continuation? with
  | none =>
    have hlow := (Kind.continuation?_eq_none_iff _).mp hk
    exact absurd (Precedence.le_trans hlow (Precedence.lowest_le p)) (Nat.not_le_of_lt hp)
  | some c =>
    cases c with
    | operator => exact .inl ⟨rfl, fun expr u => by simp only [carryOn, hp, if_true, hk]⟩
    | arguments =>
      exact .inr ⟨(Kind.continuation?_eq_arguments_iff _).mp hk,
        fun expr u => by simp only [carryOn, hp, if_true, hk]⟩

theorem carryOn_stop {p : Precedence} {left : Expr} {u : List Token}
    (hp : (kindOf u).precedence ≤ p) : carryOn expr p left u = .ok (none, u) := by
  cases u with
  | nil => rfl
  | cons t u =>
    have hlt : ¬ p < t.kind.precedence := Precedence.not_lt.mpr hp
    simp only [carryOn, hlt, if_false]

/-- A step of the climbing loop ends it where nothing binds tighter. -/
theorem carryOn_none {p : Precedence} {left : Expr} {u r : List Token} :
    carryOn expr p left u = .ok (none, r) ↔ (kindOf u).precedence ≤ p ∧ r = u := by
  constructor
  · intro h
    by_cases hp : (kindOf u).precedence ≤ p
    · rw [carryOn_stop hp] at h
      cases h
      exact ⟨hp, rfl⟩
    · cases u with
      | nil => exact absurd (Precedence.lowest_le p) hp
      | cons t u =>
        rcases carryOn_cons left (Precedence.not_le.mp hp) with ⟨-, heq⟩ | ⟨-, heq⟩
        · simp [heq, map_ok] at h
        · simp [heq, map_ok] at h
  · rintro ⟨hp, rfl⟩
    exact carryOn_stop hp

/-- A step of the climbing loop that goes on has read an operator and its right operand, or
    arguments. -/
theorem carryOn_some {p : Precedence} {left e : Expr} {u r : List Token} :
    carryOn expr p left u = .ok (some e, r) ↔
      ∃ t v, u = t :: v ∧ p < t.kind.precedence ∧
        ((t.kind.continuation? = some .operator ∧
            ∃ right, expr t.kind.precedence v = .ok (right, r) ∧ e = .binary left t.text right) ∨
          (t.kind = .leftParen ∧
            ∃ args, commaSeparated (expr .lowest) v = .ok (args, r) ∧ e = .call left args)) := by
  constructor
  · intro h
    by_cases hp : (kindOf u).precedence ≤ p
    · simp [carryOn_stop hp] at h
    · cases u with
      | nil => exact absurd (Precedence.lowest_le p) hp
      | cons t v =>
        refine ⟨t, v, rfl, Precedence.not_le.mp hp, ?_⟩
        rcases carryOn_cons left (Precedence.not_le.mp hp) with ⟨hk, heq⟩ | ⟨hk, heq⟩
        · rw [heq, map_ok] at h
          obtain ⟨right, hright, he⟩ := h
          exact .inl ⟨hk, right, hright, Option.some.inj he⟩
        · rw [heq, map_ok] at h
          obtain ⟨args, hargs, he⟩ := h
          exact .inr ⟨hk, args, hargs, Option.some.inj he⟩
  · rintro ⟨t, v, rfl, hp, (⟨hk, right, hright, rfl⟩ | ⟨hk, args, hargs, rfl⟩)⟩
    · simp only [carryOn, hp, if_true, hk, map_ok]
      exact ⟨right, hright, rfl⟩
    · have hc := (Kind.continuation?_eq_arguments_iff _).mpr hk
      simp only [carryOn, hp, if_true, hc, map_ok]
      exact ⟨args, hargs, rfl⟩

/-! ### Statements -/

theorem definition_ok {u r : List Token} {s : Stmt} :
    definition expr u = .ok (s, r) ↔
      ∃ x u₁ u₂ e u₃, expect .ident u = .ok (x, u₁) ∧ Starts .assign u₁ u₂ ∧
        expr .lowest u₂ = .ok (e, u₃) ∧ Starts .semicolon u₃ r ∧ s = .define x e := by
  simp only [definition, bind_ok, pure_ok, discard_expect_ok]
  constructor
  · rintro ⟨x, u₁, hname, -, u₂, hassign, e, u₃, he, -, u₄, hend, rfl, rfl⟩
    exact ⟨x, u₁, u₂, e, u₃, hname, hassign, he, hend, rfl⟩
  · rintro ⟨x, u₁, u₂, e, u₃, hname, hassign, he, hend, rfl⟩
    exact ⟨x, u₁, hname, (), u₂, hassign, e, u₃, he, (), r, hend, rfl, rfl⟩

theorem returned_ok {u r : List Token} {s : Stmt} :
    returned expr u = .ok (s, r) ↔
      (Starts .semicolon u r ∧ s = .ret .empty) ∨
        (kindOf u ≠ .semicolon ∧ ∃ e v, expr .lowest u = .ok (e, v) ∧ Starts .semicolon v r ∧
          s = .ret e) := by
  simp only [returned, bind_ok, accept_ok (k := .semicolon) (by decide)]
  constructor
  · rintro ⟨b, v, (⟨rfl, hend⟩ | ⟨rfl, hno, rfl⟩), h⟩
    · simp only [if_true, pure_ok] at h
      obtain ⟨rfl, rfl⟩ := h
      exact .inl ⟨hend, rfl⟩
    · simp only [Bool.false_eq_true, if_false, bind_ok, pure_ok, discard_expect_ok] at h
      obtain ⟨e, w, he, -, z, hend, rfl, rfl⟩ := h
      exact .inr ⟨hno, e, w, he, hend, rfl⟩
  · rintro (⟨hend, rfl⟩ | ⟨hno, e, v, he, hend, rfl⟩)
    · exact ⟨true, r, .inl ⟨rfl, hend⟩, by simp [pure_ok]⟩
    · refine ⟨false, u, .inr ⟨rfl, hno, rfl⟩, ?_⟩
      simp only [Bool.false_eq_true, if_false, bind_ok, pure_ok, discard_expect_ok]
      exact ⟨e, v, he, (), r, hend, rfl, rfl⟩

theorem expressionStatement_ok {u r : List Token} {s : Stmt} :
    expressionStatement expr u = .ok (s, r) ↔
      ∃ e v, expr .lowest u = .ok (e, v) ∧
        (Starts .semicolon v r ∨ (kindOf v ≠ .semicolon ∧ r = v)) ∧ s = .expr e := by
  have hdiscard : (discard (accept .semicolon) : Parser PUnit) =
      (fun _ => PUnit.unit) <$> accept .semicolon := rfl
  simp only [expressionStatement, bind_ok, pure_ok, hdiscard, map_ok,
    accept_ok (k := .semicolon) (by decide)]
  constructor
  · rintro ⟨e, v, he, -, w, ⟨b, (⟨rfl, hend⟩ | ⟨rfl, hno, rfl⟩), -⟩, rfl, rfl⟩
    · exact ⟨e, v, he, .inl hend, rfl⟩
    · exact ⟨e, r, he, .inr ⟨hno, rfl⟩, rfl⟩
  · rintro ⟨e, v, he, (hend | ⟨hno, rfl⟩), rfl⟩
    · exact ⟨e, v, he, (), r, ⟨true, .inl ⟨rfl, hend⟩, trivial⟩, rfl, rfl⟩
    · exact ⟨e, r, he, (), r, ⟨false, .inr ⟨rfl, hno, rfl⟩, trivial⟩, rfl, rfl⟩

/-- Whether a token starts a statement other than an expression. -/
def startsOther : Kind → Bool
  | .letWord | .returnWord | .leftBrace | .semicolon => true
  | _ => false

theorem statement_apply (u : List Token) :
    statement expr block u =
      match kindOf u with
      | .letWord => (some <$> definition expr) u.tail
      | .returnWord => (some <$> returned expr) u.tail
      | .leftBrace => ((fun body => some (.block body)) <$> block) u.tail
      | .semicolon => .ok (none, u.tail)
      | _ => (some <$> expressionStatement expr) u := by
  rw [statement, bind_apply]
  simp only [peek]
  cases kindOf u <;> rfl

theorem statement_ok {u r : List Token} {o : Option Stmt} :
    statement expr block u = .ok (o, r) ↔
      (∃ v s, Starts .letWord u v ∧ definition expr v = .ok (s, r) ∧ o = some s) ∨
      (∃ v s, Starts .returnWord u v ∧ returned expr v = .ok (s, r) ∧ o = some s) ∨
      (∃ v body, Starts .leftBrace u v ∧ block v = .ok (body, r) ∧ o = some (.block body)) ∨
      (Starts .semicolon u r ∧ o = none) ∨
      (startsOther (kindOf u) = false ∧
        ∃ s, expressionStatement expr u = .ok (s, r) ∧ o = some s) := by
  rw [statement_apply]
  constructor
  · intro h
    split at h
    · next hk =>
      obtain ⟨s, hs, rfl⟩ := map_ok.mp h
      exact .inl ⟨u.tail, s, starts_of_kindOf (by decide) hk, hs, rfl⟩
    · next hk =>
      obtain ⟨s, hs, rfl⟩ := map_ok.mp h
      exact .inr (.inl ⟨u.tail, s, starts_of_kindOf (by decide) hk, hs, rfl⟩)
    · next hk =>
      obtain ⟨body, hbody, rfl⟩ := map_ok.mp h
      exact .inr (.inr (.inl ⟨u.tail, body, starts_of_kindOf (by decide) hk, hbody, rfl⟩))
    · next hk =>
      cases h
      exact .inr (.inr (.inr (.inl ⟨starts_of_kindOf (by decide) hk, rfl⟩)))
    · next hlet hreturn hbrace hsemicolon =>
      obtain ⟨s, hs, rfl⟩ := map_ok.mp h
      have hno : startsOther (kindOf u) = false := by
        cases hk : kindOf u <;> simp_all [startsOther]
      exact .inr (.inr (.inr (.inr ⟨hno, s, hs, rfl⟩)))
  · rintro (⟨v, s, hk, hs, rfl⟩ | ⟨v, s, hk, hs, rfl⟩ | ⟨v, body, hk, hbody, rfl⟩ |
      ⟨hk, rfl⟩ | ⟨hno, s, hs, rfl⟩)
    · rw [hk.kindOf, ← hk.tail]
      exact map_ok.mpr ⟨s, hs, rfl⟩
    · rw [hk.kindOf, ← hk.tail]
      exact map_ok.mpr ⟨s, hs, rfl⟩
    · rw [hk.kindOf, ← hk.tail]
      exact map_ok.mpr ⟨body, hbody, rfl⟩
    · rw [hk.kindOf, ← hk.tail]
    · split
      · next hk => simp [hk, startsOther] at hno
      · next hk => simp [hk, startsOther] at hno
      · next hk => simp [hk, startsOther] at hno
      · next hk => simp [hk, startsOther] at hno
      · exact map_ok.mpr ⟨s, hs, rfl⟩

/-! ### Sequences of statements -/

/-- Reads one statement more, or nothing at a token that ends them. -/
def nextStatement (expr : Precedence → Parser Expr) (block : Parser Block)
    (isEnd : Kind → Bool) (reversed : List Stmt) : Parser (Option (List Stmt)) := do
  if isEnd (← peek) then
    return none
  else
    match ← statement expr block with
    | some s => return some (s :: reversed)
    | none => return some reversed

theorem nextStatement_none {isEnd : Kind → Bool} {ss : List Stmt} {u r : List Token} :
    nextStatement expr block isEnd ss u = .ok (none, r) ↔ isEnd (kindOf u) = true ∧ r = u := by
  simp only [nextStatement, bind_ok, peek_ok]
  constructor
  · rintro ⟨k, v, ⟨rfl, rfl⟩, h⟩
    split at h
    · next hend => exact ⟨hend, (pure_ok.mp h).2⟩
    · simp only [bind_ok] at h
      obtain ⟨o, w, -, h⟩ := h
      cases o <;> simp [pure_ok] at h
  · rintro ⟨hend, rfl⟩
    exact ⟨kindOf r, r, ⟨rfl, rfl⟩, by simp [hend, pure_ok]⟩

theorem nextStatement_apply {isEnd : Kind → Bool} (ss : List Stmt) {u : List Token}
    (h : isEnd (kindOf u) = false) :
    nextStatement expr block isEnd ss u =
      ((fun o => some (o.toList ++ ss)) <$> statement expr block) u := by
  have hnext : nextStatement expr block isEnd ss u =
      (statement expr block >>= fun o =>
        match o with
        | some s => pure (some (s :: ss))
        | none => pure (some ss)) u := by
    rw [nextStatement, bind_apply]
    simp only [peek, h, Bool.false_eq_true, if_false]
  rw [hnext, ← bind_pure_comp, bind_apply, bind_apply]
  rcases statement expr block u with f | ⟨_ | s, v⟩ <;> rfl

theorem nextStatement_some {isEnd : Kind → Bool} {ss ss' : List Stmt} {u r : List Token} :
    nextStatement expr block isEnd ss u = .ok (some ss', r) ↔
      isEnd (kindOf u) = false ∧
        ∃ o, statement expr block u = .ok (o, r) ∧ ss' = o.toList ++ ss := by
  cases hend : isEnd (kindOf u) with
  | true =>
    constructor
    · intro h
      rw [nextStatement_none.mpr ⟨hend, rfl⟩] at h
      cases h
    · rintro ⟨hno, -⟩
      cases hno
  | false =>
    rw [nextStatement_apply ss hend, map_ok]
    simp only [Option.some.injEq, true_and]

theorem statements_ok {isEnd : Kind → Bool} (hreading : Reading (nextStatement expr block isEnd))
    {ss : List Stmt} {u r : List Token} :
    statements expr block isEnd u = .ok (ss, r) ↔
      Runs (nextStatement expr block isEnd) [] u ss.reverse r ∧ isEnd (kindOf r) = true := by
  have hloop : statements expr block isEnd =
      (loop (nextStatement expr block isEnd) [] >>= fun reversed => pure reversed.reverse) := rfl
  simp only [hloop, bind_ok, pure_ok, loop_ok hreading, nextStatement_none]
  constructor
  · rintro ⟨reversed, v, ⟨w, hruns, hend, rfl⟩, rfl, rfl⟩
    exact ⟨by rwa [List.reverse_reverse], hend⟩
  · rintro ⟨hruns, hend⟩
    exact ⟨ss.reverse, r, ⟨r, hruns, hend, rfl⟩, ss.reverse_reverse.symm, rfl⟩

def endsBlock (k : Kind) : Bool := k == .rightBrace || k == .eof

theorem blockBody_ok {u r : List Token} {body : Block} :
    blockBody expr block u = .ok (body, r) ↔
      ∃ v, statements expr block endsBlock u = .ok (body, v) ∧ Starts .rightBrace v r := by
  have hbody : blockBody expr block =
      (statements expr block endsBlock >>= fun body =>
        discard (expect .rightBrace) >>= fun _ => pure body) := rfl
  simp only [hbody, bind_ok, pure_ok, discard_expect_ok]
  constructor
  · rintro ⟨body', v, hs, -, w, hclose, rfl, rfl⟩
    exact ⟨v, hs, hclose⟩
  · rintro ⟨v, hs, hclose⟩
    exact ⟨body, v, hs, (), r, hclose, rfl, rfl⟩

end Pieces

end Treewalk.Parser
