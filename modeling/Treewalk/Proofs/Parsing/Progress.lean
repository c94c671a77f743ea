/-
  Treewalk/Proofs/Parsing/Progress.lean
  =====================================
  **Every parser that succeeds has read a token**, so no loop stops for want of
  budget.  With this, the success of expressions, blocks and programs is
  described by what their loops have done.
-/
import Treewalk.Proofs.Parsing.Pieces

namespace Treewalk.Parser

/-! ### Pieces -/

section Pieces

variable {expr : Precedence → Parser Expr} {block : Parser Block}

theorem Runs.length_le_of_nextItem {α : Type} {item : Parser α} (hitem : Shrinking item)
    {xs ys : List α} {u v : List Token} (h : Runs (nextItem item) xs u ys v) :
    v.length ≤ u.length :=
  h.length_le (reading_nextItem hitem)

theorem shrinking_commaSeparated {α : Type} {item : Parser α} (hitem : Shrinking item) :
    Shrinking (commaSeparated item) := by
  intro u xs r h
  rcases (commaSeparated_ok hitem).mp h with ⟨hclose, -⟩ | ⟨-, x, v, ys, w, hx, hruns, -, hclose, -⟩
  · have := hclose.length
    omega
  · have := hitem u x v hx
    have := hruns.length_le_of_nextItem hitem
    have := hclose.length
    omega

theorem OtherwiseRead.length_le (hblock : Shrinking block) {u r : List Token}
    {other : Option Block} (h : OtherwiseRead block u other r) : r.length ≤ u.length := by
  rcases h with ⟨-, rfl, -⟩ | ⟨v, w, body, helse, hbrace, hbody, -⟩
  · exact Nat.le_refl _
  · have := helse.length
    have := hbrace.length
    have := hblock w body r hbody
    omega

variable (hexpr : ∀ p, Shrinking (expr p)) (hblock : Shrinking block)

include hexpr hblock

theorem OperandRead.length_lt {u r : List Token} {e : Expr} (h : OperandRead expr block u e r) :
    r.length < u.length := by
  cases h with
  | ident | int | yes | no => exact Nat.lt_succ_self _
  | unary hk he =>
    have := hexpr .unary _ _ _ he
    simp only [List.length_cons]
    omega
  | group hk he =>
    obtain ⟨v, he, hclose⟩ := group_ok.mp he
    have := hexpr .lowest _ _ _ he
    have := hclose.length
    simp only [List.length_cons]
    omega
  | choice hk he =>
    obtain ⟨u₁, test, u₂, u₃, u₄, body, u₅, other, hopen, htest, hclose, hbrace, hbody,
      hother, -⟩ := choice_ok.mp he
    have := hopen.length
    have := hexpr .lowest _ _ _ htest
    have := hclose.length
    have := hbrace.length
    have := hblock _ _ _ hbody
    have := hother.length_le hblock
    simp only [List.length_cons]
    omega
  | function hk he =>
    obtain ⟨u₁, params, u₂, u₃, body, hopen, hparams, hbrace, hbody, -⟩ := function_ok.mp he
    have := hopen.length
    have := shrinking_commaSeparated (shrinking_expect .ident) _ _ _ hparams
    have := hbrace.length
    have := hblock _ _ _ hbody
    simp only [List.length_cons]
    omega

omit hblock in
theorem reading_carryOn (p : Precedence) : Reading (carryOn expr p) := by
  intro left u e r h
  obtain ⟨t, v, rfl, -, (⟨-, right, hright, -⟩ | ⟨-, args, hargs, -⟩)⟩ := carryOn_some.mp h
  · have := hexpr _ _ _ _ hright
    simp only [List.length_cons]
    omega
  · have := shrinking_commaSeparated (hexpr .lowest) _ _ _ hargs
    simp only [List.length_cons]
    omega

theorem shrinking_statement : Shrinking (statement expr block) := by
  intro u o r h
  rcases statement_ok.mp h with ⟨v, s, hk, hs, -⟩ | ⟨v, s, hk, hs, -⟩ | ⟨v, body, hk, hbody, -⟩ |
    ⟨hk, -⟩ | ⟨-, s, hs, -⟩
  · obtain ⟨x, u₁, u₂, e, u₃, hname, hassign, he, hend, -⟩ := definition_ok.mp hs
    have := hk.length
    have := shrinking_expect _ _ _ _ hname
    have := hassign.length
    have := hexpr _ _ _ _ he
    have := hend.length
    omega
  · have := hk.length
    rcases returned_ok.mp hs with ⟨hend, -⟩ | ⟨-, e, w, he, hend, -⟩
    · have := hend.length
      omega
    · have := hexpr _ _ _ _ he
      have := hend.length
      omega
  · have := hk.length
    have := hblock _ _ _ hbody
    omega
  · have := hk.length
    omega
  · obtain ⟨e, v, he, (hend | ⟨-, rfl⟩), -⟩ := expressionStatement_ok.mp hs
    · have := hexpr _ _ _ _ he
      have := hend.length
      omega
    · exact hexpr _ _ _ _ he

theorem reading_nextStatement (isEnd : Kind → Bool) :
    Reading (nextStatement expr block isEnd) := by
  intro ss u ss' r h
  obtain ⟨-, o, hs, -⟩ := nextStatement_some.mp h
  exact shrinking_statement hexpr hblock u o r hs

end Pieces

/-! ### Expressions and blocks -/

theorem expression_succ_ok {limit : Nat} (hexpr : ∀ p, Shrinking (expression limit p))
    {p : Precedence} {u r : List Token} {e : Expr} :
    expression (limit + 1) p u = .ok (e, r) ↔
      ∃ left v, OperandRead (expression limit) (block limit) u left v ∧
        Runs (carryOn (expression limit) p) left v e r ∧ (kindOf r).precedence ≤ p := by
  simp only [expression, climb, bind_ok, operand_ok, loop_ok (reading_carryOn hexpr p),
    carryOn_none]
  constructor
  · rintro ⟨left, v, hleft, w, hruns, hstop, rfl⟩
    exact ⟨left, v, hleft, hruns, hstop⟩
  · rintro ⟨left, v, hleft, hruns, hstop⟩
    exact ⟨left, v, hleft, r, hruns, hstop, rfl⟩

theorem block_succ_ok {limit : Nat} (hexpr : ∀ p, Shrinking (expression limit p))
    (hblock : Shrinking (block limit)) {u r : List Token} {body : Block} :
    block (limit + 1) u = .ok (body, r) ↔
      ∃ v, Runs (nextStatement (expression limit) (block limit) endsBlock) [] u body.reverse v ∧
        Starts .rightBrace v r := by
  simp only [block, blockBody_ok, statements_ok (reading_nextStatement hexpr hblock endsBlock)]
  constructor
  · rintro ⟨v, ⟨hruns, -⟩, hclose⟩
    exact ⟨v, hruns, hclose⟩
  · rintro ⟨v, hruns, hclose⟩
    exact ⟨v, ⟨hruns, by rw [hclose.kindOf]; rfl⟩, hclose⟩

theorem shrinking_expression_block (limit : Nat) :
    (∀ p, Shrinking (expression limit p)) ∧ Shrinking (block limit) := by
  induction limit with
  | zero =>
    constructor
    · intro p u e r h
      cases h
    · intro u body r h
      cases h
  | succ limit ih =>
    obtain ⟨hexpr, hblock⟩ := ih
    constructor
    · intro p u e r h
      obtain ⟨left, v, hleft, hruns, -⟩ := (expression_succ_ok hexpr).mp h
      have := hleft.length_lt hexpr hblock
      have := hruns.length_le (reading_carryOn hexpr p)
      omega
    · intro u body r h
      obtain ⟨v, hruns, hclose⟩ := (block_succ_ok hexpr hblock).mp h
      have := hruns.length_le (reading_nextStatement hexpr hblock endsBlock)
      have := hclose.length
      omega

theorem shrinking_expression (limit : Nat) (p : Precedence) : Shrinking (expression limit p) :=
  (shrinking_expression_block limit).1 p

theorem shrinking_block (limit : Nat) : Shrinking (block limit) :=
  (shrinking_expression_block limit).2

/-- What an expression has read: an operand, and then steps up to a token that does not bind
    tighter than the precedence asked for. -/
theorem expression_ok {limit : Nat} {p : Precedence} {u r : List Token} {e : Expr} :
    expression (limit + 1) p u = .ok (e, r) ↔
      ∃ left v, OperandRead (expression limit) (block limit) u left v ∧
        Runs (carryOn (expression limit) p) left v e r ∧ (kindOf r).precedence ≤ p :=
  expression_succ_ok (shrinking_expression limit)

/-- What the inside of a block has read: statements up to a closing brace. -/
theorem block_ok {limit : Nat} {u r : List Token} {body : Block} :
    block (limit + 1) u = .ok (body, r) ↔
      ∃ v, Runs (nextStatement (expression limit) (block limit) endsBlock) [] u body.reverse v ∧
        Starts .rightBrace v r :=
  block_succ_ok (shrinking_expression limit) (shrinking_block limit)

/-- The token that ends a program. -/
def endsProgram (k : Kind) : Bool := k == .eof

/-- What a program has read: statements up to the end token. -/
theorem program_ok {limit : Nat} {u r : List Token} {p : Program} :
    program limit u = .ok (p, r) ↔
      Runs (nextStatement (expression limit) (block limit) endsProgram) [] u p.reverse r ∧
        endsProgram (kindOf r) = true :=
  statements_ok (reading_nextStatement (shrinking_expression limit) (shrinking_block limit)
    endsProgram)

end Treewalk.Parser
