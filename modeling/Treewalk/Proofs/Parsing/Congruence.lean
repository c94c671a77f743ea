/-
  Treewalk/Proofs/Parsing/Congruence.lean
  =======================================
  **Parsers that are composed in the same way** are related when their parts
  are.  A relation only has to be kept by the ways of composing parsers:
  sequences, loops, and decisions by the next token.  Then it holds of two
  parsers for programs, whose limits differ by some number, when it holds where
  the lower limit is zero.
-/
import Treewalk.Proofs.Parsing.Progress

namespace Treewalk.Parser

variable {α β : Type}

/-- Answers or fails without reading anything. -/
def stay : Except SyntaxError α → Parser α
  | .ok a => pure a
  | .error e => fail e

/-- What a relation between parsers has to be kept by. -/
structure Congruence (Rel : {α : Type} → Parser α → Parser α → Prop) : Prop where
  bind {α β : Type} {p p' : Parser α} {next next' : α → Parser β} :
    Rel p p' → (∀ a, Rel (next a) (next' a)) → Rel (p >>= next) (p' >>= next')
  loop {α : Type} {step step' : α → Parser (Option α)} :
    Reading step → (∀ a, Rel (step a) (step' a)) → ∀ a, Rel (loop step a) (loop step' a)
  /-- By the next token, both parsers decide to stay where they are, or to read it and go on. -/
  next {α : Type} {p p' : Parser α} :
    (∃ o, p [] = stay o [] ∧ p' [] = stay o []) →
    (∀ t, (∃ o, ∀ u, p (t :: u) = stay o (t :: u) ∧ p' (t :: u) = stay o (t :: u)) ∨
      ∃ q q', Rel q q' ∧ ∀ u, p (t :: u) = q u ∧ p' (t :: u) = q' u) →
    Rel p p'

/-! ### Decisions by the next token -/

/-- How an operand goes on behind a token that can start one, given the parsers for expressions
    and blocks. -/
inductive OperandForm (t : Token) : ((Precedence → Parser Expr) → Parser Block → Parser Expr) →
    Prop
  | ident : t.kind = .ident → OperandForm t fun _ _ => pure (.ident t.text)
  | int {v : Int} : t.kind = .int → Number.ofNumeral? t.text.toList = some v →
      OperandForm t fun _ _ => pure (.int v)
  | yes : t.kind = .trueWord → OperandForm t fun _ _ => pure (.bool true)
  | no : t.kind = .falseWord → OperandForm t fun _ _ => pure (.bool false)
  | unary : t.kind.isUnary = true → OperandForm t fun expr _ => Expr.unary t.text <$> expr .unary
  | group : t.kind = .leftParen → OperandForm t fun expr _ => group expr
  | choice : t.kind = .ifWord → OperandForm t choice
  | function : t.kind = .fnWord → OperandForm t fun _ block => function block

/-- Behind its first token an operand goes on in one of these forms, unless it refuses the token;
    and this does not depend on the parsers it is given. -/
theorem operand_cons (t : Token) :
    (∃ form, OperandForm t form ∧
      ∀ expr block u, operand expr block (t :: u) = form expr block u) ∨
    (∃ e, e ≠ .tooDeep ∧ ∀ expr block u, operand expr block (t :: u) = fail e (t :: u)) := by
  cases hk : t.kind with
  | ident => exact .inl ⟨_, .ident hk, fun _ _ _ => by simp only [operand, hk]; rfl⟩
  | trueWord => exact .inl ⟨_, .yes hk, fun _ _ _ => by simp only [operand, hk]; rfl⟩
  | falseWord => exact .inl ⟨_, .no hk, fun _ _ _ => by simp only [operand, hk]; rfl⟩
  | int =>
    cases hv : Number.ofNumeral? t.text.toList with
    | some v => exact .inl ⟨_, .int hk hv, fun _ _ _ => by simp only [operand, hk, hv]; rfl⟩
    | none => exact .inr ⟨.tooLarge t.text, by simp, fun _ _ _ => by simp only [operand, hk, hv]⟩
  | bang | minus =>
    exact .inl ⟨_, .unary (by rw [hk]; rfl), fun _ _ _ => by simp only [operand, hk]⟩
  | leftParen => exact .inl ⟨_, .group hk, fun _ _ _ => by simp only [operand, hk]⟩
  | ifWord => exact .inl ⟨_, .choice hk, fun _ _ _ => by simp only [operand, hk]⟩
  | fnWord => exact .inl ⟨_, .function hk, fun _ _ _ => by simp only [operand, hk]⟩
  | _ => exact .inr ⟨.noOperand t.kind, by simp, fun _ _ _ => by simp only [operand, hk]⟩

/-! ### Composed parsers -/

namespace Congruence

variable {Rel : {α : Type} → Parser α → Parser α → Prop} (h : Congruence Rel)

include h

theorem stay (o : Except SyntaxError α) : Rel (stay o) (stay o) :=
  h.next ⟨o, rfl, rfl⟩ fun _ => .inl ⟨o, fun _ => ⟨rfl, rfl⟩⟩

theorem pure (a : α) : Rel (pure a : Parser α) (Pure.pure a) := h.stay (.ok a)

theorem peek : Rel peek peek :=
  h.next ⟨.ok .eof, rfl, rfl⟩ fun t => .inl ⟨.ok t.kind, fun _ => ⟨rfl, rfl⟩⟩

theorem advance : Rel advance advance :=
  h.next ⟨.ok (), rfl, rfl⟩ fun _ =>
    .inr ⟨Pure.pure (), Pure.pure (), h.pure (), fun _ => ⟨rfl, rfl⟩⟩

theorem expect (k : Kind) : Rel (expect k) (expect k) := by
  refine h.next ⟨.error (.unexpected k .eof), rfl, rfl⟩ fun t => ?_
  by_cases hk : t.kind = k
  · have hread : ∀ u, Parser.expect k (t :: u) = (Pure.pure t.text : Parser String) u := fun u => by
      simp only [Parser.expect, hk, if_true, pure_apply]
    exact .inr ⟨_, _, h.pure t.text, fun u => ⟨hread u, hread u⟩⟩
  · have hfail : ∀ u, Parser.expect k (t :: u) =
        Parser.stay (.error (.unexpected k t.kind)) (t :: u) := fun u => by
      simp only [Parser.expect, hk, if_false]
      rfl
    exact .inl ⟨_, fun u => ⟨hfail u, hfail u⟩⟩

theorem map {p p' : Parser α} (f : α → β) (hp : Rel p p') : Rel (f <$> p) (f <$> p') := by
  rw [← bind_pure_comp, ← bind_pure_comp]
  exact h.bind hp fun a => h.pure (f a)

theorem skip (k : Kind) :
    Rel (discard (Parser.expect k) : Parser PUnit) (discard (Parser.expect k)) :=
  h.map _ (h.expect k)

theorem accept (k : Kind) : Rel (accept k) (accept k) := by
  refine h.bind h.peek fun found => ?_
  split
  · exact h.bind h.advance fun _ => h.pure true
  · exact h.pure false

theorem ifAccept (k : Kind) {p p' q q' : Parser α} (hp : Rel p p') (hq : Rel q q') :
    Rel (do if ← Parser.accept k then p else q) (do if ← Parser.accept k then p' else q') := by
  refine h.bind (h.accept k) fun b => ?_
  cases b with
  | true => exact hp
  | false => exact hq

theorem commaSeparated {item item' : Parser α} (hshrinking : Shrinking item)
    (hitem : Rel item item') : Rel (commaSeparated item) (commaSeparated item') := by
  refine h.ifAccept _ (h.pure []) (h.bind hitem fun first => h.bind ?_ fun reversed =>
    h.bind (h.skip _) fun _ => h.pure _)
  exact h.loop (reading_nextItem hshrinking) (fun xs =>
    h.ifAccept _ (h.bind hitem fun x => h.pure _) (h.pure none)) [first]

/-! ### Pieces -/

section Pieces

variable {expr expr' : Precedence → Parser Expr} {block block' : Parser Block}
  (hexpr : ∀ p, Rel (expr p) (expr' p)) (hblock : Rel block block')

include hexpr

theorem group : Rel (group expr) (group expr') :=
  h.bind (hexpr _) fun _ => h.bind (h.skip _) fun _ => h.pure _

theorem definition : Rel (definition expr) (definition expr') :=
  h.bind (h.expect _) fun _ => h.bind (h.skip _) fun _ => h.bind (hexpr _) fun _ =>
    h.bind (h.skip _) fun _ => h.pure _

theorem returned : Rel (returned expr) (returned expr') :=
  h.ifAccept _ (h.pure _) (h.bind (hexpr _) fun _ => h.bind (h.skip _) fun _ => h.pure _)

theorem expressionStatement : Rel (expressionStatement expr) (expressionStatement expr') :=
  h.bind (hexpr _) fun _ => h.bind (h.map _ (h.accept _)) fun _ => h.pure _

theorem carryOn (hshrinking : ∀ p, Shrinking (expr p)) (p : Precedence) (left : Expr) :
    Rel (carryOn expr p left) (carryOn expr' p left) := by
  refine h.next ⟨.ok none, rfl, rfl⟩ fun t => ?_
  by_cases hp : p < t.kind.precedence
  · right
    rcases carryOn_cons left hp with ⟨-, hread⟩ | ⟨-, hread⟩
    · exact ⟨_, _, h.map _ (hexpr t.kind.precedence), fun u => ⟨hread _ u, hread _ u⟩⟩
    · exact ⟨_, _, h.map _ (h.commaSeparated (hshrinking _) (hexpr .lowest)),
        fun u => ⟨hread _ u, hread _ u⟩⟩
  · refine .inl ⟨.ok none, fun u => ?_⟩
    simp only [Parser.carryOn, hp, if_false]
    exact ⟨rfl, rfl⟩

theorem climb (hshrinking : ∀ p, Shrinking (expr p)) (p : Precedence) (left : Expr) :
    Rel (climb expr p left) (climb expr' p left) :=
  h.loop (reading_carryOn hshrinking p) (h.carryOn hexpr hshrinking p) left

include hblock

theorem choice : Rel (choice expr block) (choice expr' block') :=
  h.bind (h.skip _) fun _ => h.bind (hexpr _) fun _ => h.bind (h.skip _) fun _ =>
    h.bind (h.skip _) fun _ => h.bind hblock fun _ =>
      h.ifAccept _ (h.bind (h.skip _) fun _ => h.bind hblock fun _ => h.pure _) (h.pure _)

omit hexpr in
theorem function : Rel (function block) (function block') :=
  h.bind (h.skip _) fun _ =>
    h.bind (h.commaSeparated (shrinking_expect .ident) (h.expect .ident)) fun _ =>
      h.bind (h.skip _) fun _ => h.bind hblock fun _ => h.pure _

theorem operand : Rel (operand expr block) (operand expr' block') := by
  refine h.next ⟨.error (.noOperand .eof), rfl, rfl⟩ fun t => ?_
  rcases operand_cons t with ⟨form, hform, hread⟩ | ⟨e, -, hfail⟩
  · refine .inr ⟨form expr block, form expr' block', ?_, fun u => ⟨hread _ _ u, hread _ _ u⟩⟩
    cases hform with
    | ident | int | yes | no => exact h.pure _
    | unary => exact h.map _ (hexpr _)
    | group => exact h.group hexpr
    | choice => exact h.choice hexpr hblock
    | function => exact h.function hblock
  · exact .inl ⟨.error e, fun u => ⟨hfail _ _ u, hfail _ _ u⟩⟩

theorem statement : Rel (statement expr block) (statement expr' block') := by
  refine h.bind h.peek fun k => ?_
  split
  · exact h.bind h.advance fun _ => h.map _ (h.definition hexpr)
  · exact h.bind h.advance fun _ => h.map _ (h.returned hexpr)
  · exact h.bind h.advance fun _ => h.map _ hblock
  · exact h.bind h.advance fun _ => h.pure _
  · exact h.map _ (h.expressionStatement hexpr)

variable (hshrinking : ∀ p, Shrinking (expr p)) (hshrinking' : Shrinking block)

include hshrinking hshrinking'

theorem statements (isEnd : Kind → Bool) :
    Rel (statements expr block isEnd) (statements expr' block' isEnd) := by
  refine h.bind (h.loop (reading_nextStatement hshrinking hshrinking' isEnd)
    (fun reversed => h.bind h.peek fun k => ?_) []) fun _ => h.pure _
  split
  · exact h.pure none
  · refine h.bind (h.statement hexpr hblock) fun o => ?_
    cases o <;> exact h.pure _

theorem blockBody : Rel (blockBody expr block) (blockBody expr' block') :=
  h.bind (h.statements hexpr hblock hshrinking hshrinking' _) fun _ =>
    h.bind (h.skip _) fun _ => h.pure _

end Pieces

/-! ### Limits -/

theorem expression_block {k : Nat} (hexpr : ∀ p, Rel (expression 0 p) (expression k p))
    (hblock : Rel (block 0) (block k)) (limit : Nat) :
    (∀ p, Rel (expression limit p) (expression (k + limit) p)) ∧
      Rel (block limit) (block (k + limit)) := by
  induction limit with
  | zero => exact ⟨hexpr, hblock⟩
  | succ limit ih =>
    obtain ⟨hexpr, hblock⟩ := ih
    have hshrinking := shrinking_expression limit
    constructor
    · intro p
      simp only [expression]
      exact h.bind (h.operand hexpr hblock) fun left => h.climb hexpr hshrinking p left
    · simp only [Parser.block]
      exact h.blockBody hexpr hblock hshrinking (shrinking_block limit)

/-- Programs are read alike with the limits `limit` and `k + limit` when nothing is with the
    limits zero and `k`. -/
theorem program {k : Nat} (hexpr : ∀ p, Rel (expression 0 p) (expression k p))
    (hblock : Rel (block 0) (block k)) (limit : Nat) :
    Rel (program limit) (program (k + limit)) := by
  obtain ⟨hexpr, hblock⟩ := h.expression_block hexpr hblock limit
  exact h.statements hexpr hblock (shrinking_expression limit) (shrinking_block limit) _

end Congruence

end Treewalk.Parser
