/-
  Treewalk/Proofs/Parsing/Blame.lean
  ==================================
  **What an error says is true of the token that is refused**: the kind that was
  found is the kind of this token, and a numeral that is too large is its text.
-/
import Treewalk.Proofs.Parsing.Congruence
import Treewalk.Token.Scan

namespace Treewalk

/-- What is said of a token is true of it.  That expressions are nested too deep is said of none. -/
def SyntaxError.Blames (t : Token) : SyntaxError → Prop
  | noOperand found => t.kind = found
  | unexpected _ found => t.kind = found
  | tooLarge numeral => t.kind = .int ∧ t.text = numeral
  | tooDeep => True

namespace Parser

variable {α β : Type}

/-- Every error of the parser is true of the first token that it leaves, or of the end token. -/
def Blaming (p : Parser α) : Prop :=
  ∀ u f, p u = .error f → f.error.Blames (f.unread.headD .eof)

/-! ### Composed parsers -/

namespace Blaming

theorem of_total {p : Parser α} (h : ∀ u, ∃ result, p u = .ok result) : Blaming p := by
  intro u f hf
  obtain ⟨result, hresult⟩ := h u
  cases hresult.symm.trans hf

theorem pure (a : α) : Blaming (Pure.pure a : Parser α) := of_total fun u => ⟨(a, u), rfl⟩

theorem accept (k : Kind) : Blaming (accept k) :=
  of_total fun u => by
    rw [accept_apply]
    split <;> exact ⟨_, rfl⟩

theorem bind {p : Parser α} {next : α → Parser β} (h : Blaming p)
    (hnext : ∀ a, Blaming (next a)) : Blaming (p >>= next) := by
  intro u f hf
  rcases bind_error.mp hf with hf | ⟨a, v, -, hf⟩
  · exact h u f hf
  · exact hnext a v f hf

theorem map {p : Parser α} (f : α → β) (h : Blaming p) : Blaming (f <$> p) := by
  rw [← bind_pure_comp]
  exact h.bind fun a => .pure (f a)

theorem expect (k : Kind) : Blaming (expect k) := by
  intro u f hf
  cases u with
  | nil =>
    cases hf
    rfl
  | cons t u =>
    simp only [Parser.expect] at hf
    split at hf <;> cases hf
    rfl

theorem skip (k : Kind) : Blaming (discard (Parser.expect k) : Parser PUnit) := (expect k).map _

theorem ifAccept (k : Kind) {p q : Parser α} (hp : Blaming p) (hq : Blaming q) :
    Blaming (do if ← Parser.accept k then p else q) := by
  refine (accept k).bind fun b => ?_
  cases b with
  | true => exact hp
  | false => exact hq

theorem loop {step : α → Parser (Option α)} (h : ∀ a, Blaming (step a)) (a : α) :
    Blaming (loop step a) := by
  have hwithin : ∀ budget a, Blaming (loopWithin step budget a) := by
    intro budget
    induction budget with
    | nil => exact fun a => (h a).bind fun _ => .pure _
    | cons t budget ih =>
      refine fun a => (h a).bind fun o => ?_
      cases o with
      | none => exact .pure a
      | some b => exact ih b
  intro u
  exact hwithin u a u

theorem commaSeparated {item : Parser α} (h : Blaming item) : Blaming (commaSeparated item) :=
  .ifAccept _ (.pure []) (h.bind fun first =>
    (loop (fun _ => .ifAccept _ (h.bind fun _ => .pure _) (.pure none)) [first]).bind
      fun _ => (skip _).bind fun _ => .pure _)

/-! ### Pieces -/

section Pieces

variable {expr : Precedence → Parser Expr} {block : Parser Block}
  (hexpr : ∀ p, Blaming (expr p)) (hblock : Blaming block)

include hexpr

theorem group : Blaming (group expr) :=
  (hexpr _).bind fun _ => (skip _).bind fun _ => .pure _

theorem carryOn (p : Precedence) (left : Expr) : Blaming (carryOn expr p left) := by
  intro u f hf
  by_cases hp : (kindOf u).precedence ≤ p
  · cases (carryOn_stop hp).symm.trans hf
  · cases u with
    | nil => exact absurd (Precedence.lowest_le p) hp
    | cons t u =>
      rcases carryOn_cons left (Precedence.not_le.mp hp) with ⟨-, hread⟩ | ⟨-, hread⟩
      · exact ((hexpr _).map _) u f ((hread expr u).symm.trans hf)
      · exact ((commaSeparated (hexpr .lowest)).map _) u f ((hread expr u).symm.trans hf)

theorem definition : Blaming (definition expr) :=
  (expect _).bind fun _ => (skip _).bind fun _ => (hexpr _).bind fun _ =>
    (skip _).bind fun _ => .pure _

theorem returned : Blaming (returned expr) :=
  .ifAccept _ (.pure _) ((hexpr _).bind fun _ => (skip _).bind fun _ => .pure _)

theorem expressionStatement : Blaming (expressionStatement expr) :=
  (hexpr _).bind fun _ => ((accept _).map _).bind fun _ => .pure _

include hblock

theorem choice : Blaming (choice expr block) :=
  (skip _).bind fun _ => (hexpr _).bind fun _ => (skip _).bind fun _ => (skip _).bind fun _ =>
    hblock.bind fun _ => .ifAccept _ ((skip _).bind fun _ => hblock.bind fun _ => .pure _) (.pure _)

omit hexpr in
theorem function : Blaming (function block) :=
  (skip _).bind fun _ => (commaSeparated (expect .ident)).bind fun _ => (skip _).bind fun _ =>
    hblock.bind fun _ => .pure _

theorem operand : Blaming (operand expr block) := by
  intro u f hf
  cases u with
  | nil =>
    cases hf
    rfl
  | cons t u =>
    simp only [Parser.operand] at hf
    split at hf
    · cases hf
    · next hk =>
      split at hf <;> cases hf
      exact ⟨hk, rfl⟩
    · cases hf
    · cases hf
    · exact ((hexpr _).map _) u f hf
    · exact ((hexpr _).map _) u f hf
    · exact group hexpr u f hf
    · exact choice hexpr hblock u f hf
    · exact function hblock u f hf
    · cases hf
      rfl

theorem statement : Blaming (statement expr block) := by
  intro u f hf
  rw [statement_apply] at hf
  split at hf
  · exact ((definition hexpr).map _) _ f hf
  · exact ((returned hexpr).map _) _ f hf
  · exact (hblock.map _) _ f hf
  · cases hf
  · exact ((expressionStatement hexpr).map _) _ f hf

theorem statements (isEnd : Kind → Bool) : Blaming (statements expr block isEnd) := by
  refine (loop (fun reversed => ?_) []).bind fun _ => .pure _
  refine (of_total fun u => ⟨_, rfl⟩ : Blaming peek).bind fun k => ?_
  split
  · exact .pure none
  · refine (statement hexpr hblock).bind fun o => ?_
    cases o <;> exact .pure _

theorem blockBody : Blaming (blockBody expr block) :=
  (statements hexpr hblock _).bind fun _ => (skip _).bind fun _ => .pure _

end Pieces

end Blaming

theorem blaming_tooDeep : Blaming (fail .tooDeep : Parser α) := by
  intro u f hf
  cases hf
  trivial

theorem blaming_expression_block (limit : Nat) :
    (∀ p, Blaming (expression limit p)) ∧ Blaming (block limit) := by
  induction limit with
  | zero => exact ⟨fun _ => blaming_tooDeep, blaming_tooDeep⟩
  | succ limit ih =>
    obtain ⟨hexpr, hblock⟩ := ih
    refine ⟨fun p => ?_, Blaming.blockBody hexpr hblock⟩
    exact (Blaming.operand hexpr hblock).bind fun left => .loop (Blaming.carryOn hexpr p) left

theorem blaming_program (limit : Nat) : Blaming (program limit) :=
  have ⟨hexpr, hblock⟩ := blaming_expression_block limit
  Blaming.statements hexpr hblock _

end Parser

end Treewalk
