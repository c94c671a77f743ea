/-
  Treewalk/Proofs/Parsing/ViablePrefix.lean
  =========================================
  **What has been read of a program is the start of one.**  Where the parser
  for programs fails, a numeral stands for an expression that is missing, and
  everything that is open is closed by its token.

  What is added may nest one level deeper than the limit allowed, so it is
  read with the limit raised by one.
-/
import Treewalk.Proofs.Parsing.Completeness
import Treewalk.Proofs.Parsing.Congruence
import Treewalk.Proofs.Parsing.Viability

namespace Treewalk.Parser

variable {β : Type} {starts follows : Kind → Prop}

/-! ### Expressions -/

/-- What may follow an expression that was read at a precedence; `Closes` is the case of the
    lowest. -/
def ClosesAt (p : Precedence) (k : Kind) : Prop := k.precedence ≤ p ∧ k ≠ .elseWord

instance (p : Precedence) (k : Kind) : Decidable (ClosesAt p k) :=
  inferInstanceAs (Decidable (_ ∧ _))

theorem ClosesAt.mono {p q : Precedence} (h : p ≤ q) (k : Kind) (hk : ClosesAt p k) :
    ClosesAt q k :=
  ⟨Precedence.le_trans hk.1 h, hk.2⟩

/-- The shortest expression. -/
def zeroToken : Token := ⟨.int, "0"⟩

theorem scanned_zeroToken : zeroToken.Scanned := Token.scanned_first (c := '0') rfl []

section Pieces

variable {expr expr' : Precedence → Parser Expr} {block block' : Parser Block}
  (hexpr : ∀ p, p ≤ .unary → Viable (· = .int) (ClosesAt p) (expr p) (expr' p))
  (hshrinking : ∀ p, Shrinking (expr p)) (hshrinking' : ∀ p, Shrinking (expr' p))
  (hblock : Viable starts (fun _ => True) block block')

include hexpr

/-- An expression and a token behind it that closes it. -/
theorem Viable.closed {k : Kind} (hk : k ≠ .eof) (hclose : Closes k) {next next' : Expr → Parser β}
    (hnext : ∀ e, Viable starts follows (next e) (next' e)) :
    Viable (· = .int) follows
      (expr .lowest >>= fun e => discard (Parser.expect k) >>= fun _ => next e)
      (expr' .lowest >>= fun e => discard (Parser.expect k) >>= fun _ => next' e) := by
  refine (hexpr .lowest (by decide)).bind (fun e => (Viable.skip hk).andThen fun _ => hnext e) ?_
  rintro _ rfl
  exact hclose

theorem Viable.group : Viable (· = .int) (fun _ => True) (group expr) (group expr') :=
  .closed hexpr (by decide) (by decide) fun e => .pure e

theorem Viable.definition :
    Viable (· = .ident) (fun _ => True) (definition expr) (definition expr') :=
  (Viable.expect (by decide)).andThen fun x => (Viable.skip (by decide)).andThen fun _ =>
    .closed hexpr (by decide) (by decide) fun e => .pure (Stmt.define x e)

theorem Viable.returned :
    Viable (· = .int) (fun _ => True) (returned expr) (returned expr') :=
  (Viable.pure _).ifAccept (by decide)
    (.closed hexpr (by decide) (by decide) fun e => .pure (Stmt.ret e)) (by decide)

theorem Viable.expressionStatement (hends : ∀ k, follows k → Closes k ∧ k ≠ .semicolon) :
    Viable (· = .int) follows (expressionStatement expr) (expressionStatement expr') := by
  have hend : Viable follows follows (discard (Parser.accept .semicolon) : Parser PUnit)
      (discard (Parser.accept .semicolon)) :=
    (Viable.accept (by decide) fun h => (hends _ h).2 rfl).map _
  exact (hexpr .lowest (by decide)).bind (fun e => hend.bind (fun _ => .pure (Stmt.expr e))
    fun _ hk => hk) fun k hk => (hends k hk).1

include hblock in
theorem Viable.choice :
    Viable (· = .leftParen) (ClosesAt .unary) (choice expr block) (choice expr' block') :=
  (Viable.skip (by decide)).andThen fun _ =>
    .closed hexpr (by decide) (by decide) fun test => (Viable.skip (by decide)).andThen fun _ =>
      hblock.andThen fun body => .ifAccept (by decide) ((Viable.skip (by decide)).andThen fun _ =>
        hblock.andThen fun _ => .pure _) (.pure _) fun h => h.2 rfl

omit hexpr in
include hblock in
theorem Viable.function :
    Viable (· = .leftParen) (fun _ => True) (function block) (function block') :=
  (Viable.skip (by decide)).andThen fun _ =>
    (Viable.commaSeparated (shrinking_expect .ident) (shrinking_expect .ident)
      (.expect (by decide)) trivial (by decide)).andThen fun _ =>
        (Viable.skip (by decide)).andThen fun _ => hblock.andThen fun _ => .pure _

include hblock in
/-- A numeral stands for an operand that is missing. -/
theorem Viable.operand :
    Viable (· = .int) (ClosesAt .unary) (operand expr block) (operand expr' block') := by
  have hfill : Completable (· = .int) (ClosesAt .unary) (Parser.operand expr' block') [] :=
    ⟨[zeroToken], .int 0, by simpa using scanned_zeroToken, fun _ _ => ⟨fun _ => rfl, rfl⟩⟩
  refine ⟨fun u => ?_, hfill⟩
  cases u with
  | nil => exact .refuse rfl hfill
  | cons t v =>
    rcases operand_cons t with ⟨form, hform, hread⟩ | ⟨e, -, hrefuse⟩
    · have hviable : ∃ starts, Viable starts (ClosesAt .unary) (form expr block)
          (form expr' block') := by
        cases hform with
        | ident | int | yes | no => exact ⟨_, .pure _⟩
        | unary => exact ⟨_, (hexpr .unary (Precedence.le_refl _)).map _⟩
        | group => exact ⟨_, (Viable.group hexpr).mono fun _ _ => trivial⟩
        | choice => exact ⟨_, .choice hexpr hblock⟩
        | function => exact ⟨_, (Viable.function hblock).mono fun _ _ => trivial⟩
      obtain ⟨starts, hviable⟩ := hviable
      exact (hviable.on v).read (hread expr block) (hread expr' block')
    · exact .refuse (hrefuse expr block v) hfill

section Climbing

include hshrinking hshrinking'

theorem viableOn_carryOn {p : Precedence} (left : Expr) (u : List Token) :
    ViableOn (ClosesAt p) (ClosesAt p) (carryOn expr p left) (carryOn expr' p left) u := by
  by_cases hstop : (kindOf u).precedence ≤ p
  · exact .answer hstop (fun _ hk => hk.1) (fun _ => carryOn_stop) fun _ => carryOn_stop
  · cases u with
    | nil => exact absurd (Precedence.lowest_le p) hstop
    | cons t v =>
      have hp : p < t.kind.precedence := Precedence.not_le.mp hstop
      rcases carryOn_cons left hp with ⟨hk, hread⟩ | ⟨-, hread⟩
      · have hright := hexpr _ (Precedence.le_of_lt (Kind.precedence_lt_unary_of_operator hk))
        exact (((hright.map _).mono (ClosesAt.mono (Precedence.le_of_lt hp))).on v).read
          (hread expr) (hread expr')
      · have hargs := (hexpr .lowest (by decide)).commaSeparated (hshrinking _) (hshrinking' _)
          (by decide) (by decide)
        exact (((hargs.map _).mono fun _ _ => trivial).on v).read (hread expr) (hread expr')

theorem Viable.climb (p : Precedence) (left : Expr) :
    Viable (ClosesAt p) (ClosesAt p) (climb expr p left) (climb expr' p left) :=
  .loop (reading_carryOn hshrinking p) (reading_carryOn hshrinking' p)
    (viableOn_carryOn hexpr hshrinking hshrinking') (fun _ _ ht => carryOn_stop ht.1) left

end Climbing

/-! ### Statements -/

include hblock

theorem Viable.statement (hends : ∀ k, follows k → Closes k ∧ k ≠ .semicolon) :
    Viable (· = .int) follows (statement expr block) (statement expr' block') := by
  have hexpression : ∀ expr block u, startsOther (kindOf u) = false →
      Parser.statement expr block u = (some <$> Parser.expressionStatement expr) u := by
    intro expr block u hu
    rw [statement_apply]
    cases hk : kindOf u <;> simp_all [startsOther]
  have hstatement : Viable (· = .int) follows (some <$> Parser.expressionStatement expr)
      (some <$> Parser.expressionStatement expr') :=
    (Viable.expressionStatement hexpr hends).map _
  have hint : ∀ k, k = .int → startsOther k = false := by
    rintro _ rfl
    rfl
  refine ⟨fun u => ?_, hstatement.fill.congr (fun h => absurd rfl h) hint (hexpression _ _)⟩
  by_cases hu : startsOther (kindOf u) = false
  · exact (hstatement.on u).congr hu hint (hexpression _ _) (hexpression _ _)
  · cases u with
    | nil => exact absurd rfl hu
    | cons t v =>
      have hread : ∀ expr block v, Parser.statement expr block (t :: v) = _ :=
        fun _ _ v => statement_apply (t :: v)
      cases hk : t.kind with
      | letWord =>
        simp only [kindOf, hk, List.tail_cons] at hread
        exact ((((Viable.definition hexpr).map some).mono fun _ _ => trivial).on v).read
          (hread _ _) (hread _ _)
      | returnWord =>
        simp only [kindOf, hk, List.tail_cons] at hread
        exact ((((Viable.returned hexpr).map some).mono fun _ _ => trivial).on v).read
          (hread _ _) (hread _ _)
      | leftBrace =>
        simp only [kindOf, hk, List.tail_cons] at hread
        exact (((hblock.map _).mono fun _ _ => trivial).on v).read (hread _ _) (hread _ _)
      | semicolon =>
        simp only [kindOf, hk, List.tail_cons] at hread
        exact ((Viable.pure none).on v).read (hread _ _) (hread _ _)
      | _ =>
        rw [kindOf, hk] at hu
        exact absurd rfl hu

section Sequences

variable {isEnd : Kind → Bool} (hends : EndsOnly isEnd)

include hends

/-- A statement that fails at its first token is left out. -/
theorem viableOn_nextStatement (ss : List Stmt) (u : List Token) :
    ViableOn (fun k => isEnd k = true) (fun k => isEnd k = true)
      (nextStatement expr block isEnd ss) (nextStatement expr' block' isEnd ss) u := by
  have hstop : ∀ {expr block} t, isEnd (kindOf t) = true →
      nextStatement expr block isEnd ss t = .ok (none, t) :=
    fun t ht => nextStatement_none.mpr ⟨ht, rfl⟩
  cases hu : isEnd (kindOf u) with
  | true => exact .answer hu (fun _ hk => hk) hstop hstop
  | false =>
    have hcloses : ∀ k, isEnd k = true → Closes k ∧ k ≠ .semicolon := by
      intro k hk
      rcases hends k hk with rfl | rfl <;> decide
    have hint : ∀ k, k = .int → isEnd k = false := by
      rintro _ rfl
      exact hends.eq_false (by decide) (by decide)
    have hstatement : ViableOn (· = .int) (fun k => isEnd k = true)
        (nextStatement expr block isEnd ss) (nextStatement expr' block' isEnd ss) u :=
      (((Viable.statement hexpr hblock hcloses).map _).on u).congr hu hint
        (fun _ => nextStatement_apply ss) fun _ => nextStatement_apply ss
    constructor
    · intro a r h
      obtain ⟨b, rfl, -, hmore⟩ := hstatement.ok h
      exact ⟨b, rfl, fun _ _ hk => hk, hmore⟩
    · intro e r h he
      obtain ⟨b, rfl, c, a, hc, hmore⟩ := hstatement.error h he
      refine ⟨b, rfl, ?_⟩
      cases b with
      | nil => exact ⟨[], none, nofun, fun t ht => ⟨fun _ => ht, hstop t ht⟩⟩
      | cons s b => exact ⟨c, a, hc, fun t ht => ⟨nofun, (hmore t ht).2⟩⟩

variable (hshrinking : ∀ p, Shrinking (expr p)) (hshrinking' : ∀ p, Shrinking (expr' p))
  (hblocks : Shrinking block) (hblocks' : Shrinking block')

include hshrinking hshrinking' hblocks hblocks'

theorem Viable.statements :
    Viable (fun k => isEnd k = true) (fun k => isEnd k = true) (statements expr block isEnd)
      (statements expr' block' isEnd) :=
  (Viable.loop (reading_nextStatement hshrinking hblocks isEnd)
    (reading_nextStatement hshrinking' hblocks' isEnd)
    (viableOn_nextStatement hexpr hblock hends)
    (fun _ _ ht => nextStatement_none.mpr ⟨ht, rfl⟩) []).bind
    (fun reversed => .pure reversed.reverse) fun _ hk => hk

omit hends in
theorem Viable.blockBody :
    Viable (fun k => endsBlock k = true) (fun _ => True) (blockBody expr block)
      (blockBody expr' block') := by
  refine (Viable.statements hexpr hshrinking hshrinking' hblock endsOnly_endsBlock hblocks
    hblocks').bind (fun body => (Viable.skip (by decide)).andThen fun _ => .pure body) ?_
  rintro _ rfl
  rfl

end Sequences

end Pieces

/-! ### Limits -/

theorem completable_expression (limit : Nat) (p : Precedence) :
    Completable (· = .int) (ClosesAt p) (expression (limit + 1) p) [] :=
  ⟨[zeroToken], .int 0, by simpa using scanned_zeroToken, fun _ ht => ⟨fun _ => rfl,
    expression_ok.mpr ⟨_, _, .int rfl rfl, .refl, ht.1⟩⟩⟩

theorem completable_block (limit : Nat) :
    Completable (fun k => endsBlock k = true) (fun _ => True) (block (limit + 1)) [] := by
  obtain ⟨t, ht, hk⟩ := exists_scanned (k := .rightBrace) (by decide)
  refine ⟨[t], [], by simpa using ht, fun v _ => ⟨fun _ => ?_, ?_⟩⟩
  · show endsBlock t.kind = true
    rw [hk]
    rfl
  · exact block_ok.mpr ⟨t :: v, .refl, t, hk, rfl⟩

theorem viable_expression_block (limit : Nat) :
    (∀ p, p ≤ .unary → Viable (· = .int) (ClosesAt p) (expression limit p)
      (expression (limit + 1) p)) ∧
    Viable (fun k => endsBlock k = true) (fun _ => True) (block limit) (block (limit + 1)) := by
  induction limit with
  | zero =>
    have hdeep : ∀ {α : Type} {starts follows : Kind → Prop} {p' : Parser α} (u : List Token),
        ViableOn starts follows (fail .tooDeep) p' u := by
      intro α starts follows p' u
      constructor
      · nofun
      · intro e r hu he
        cases hu
        exact absurd rfl he
    exact ⟨fun p _ => ⟨hdeep, completable_expression 0 p⟩, hdeep, completable_block 0⟩
  | succ limit ih =>
    obtain ⟨hexpr, hblock⟩ := ih
    have hshrinking := shrinking_expression limit
    have hshrinking' := shrinking_expression (limit + 1)
    constructor
    · intro p hp
      simp only [expression]
      exact (Viable.operand hexpr hblock).bind (Viable.climb hexpr hshrinking hshrinking' p)
        (ClosesAt.mono hp)
    · simp only [block]
      exact Viable.blockBody hexpr hshrinking hshrinking' hblock (shrinking_block limit)
        (shrinking_block (limit + 1))

/-- **Viable prefixes.**  The tokens in front of the one that is refused are the start of a
    program, which is read with a limit higher by one. -/
theorem program_viable {limit : Nat} {u r : List Token} {e : SyntaxError}
    (h : program limit u = .error ⟨e, r⟩) (he : e ≠ .tooDeep) :
    ∃ b c p, u = b ++ r ∧ (∀ t ∈ c, t.Scanned) ∧ program (limit + 1) (b ++ c) = .ok (p, []) := by
  obtain ⟨hexpr, hblock⟩ := viable_expression_block limit
  have hprogram := Viable.statements hexpr (shrinking_expression limit)
    (shrinking_expression (limit + 1)) hblock endsOnly_endsProgram (shrinking_block limit)
    (shrinking_block (limit + 1))
  obtain ⟨b, rfl, c, p, hc, hread⟩ := (hprogram.on u).error h he
  refine ⟨b, c, p, rfl, hc, ?_⟩
  have hend := (hread [] rfl).2
  rwa [List.append_nil] at hend

end Treewalk.Parser
