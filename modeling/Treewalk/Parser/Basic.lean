/-
  Treewalk/Parser/Basic.lean
  ==========================
  **Parsers** of token sequences, and the ways in which they fail.

  A parser takes the tokens that are not yet read and answers a result with
  the tokens it left, or a failure with the tokens from the offending one on.
  The tokens have no offsets, so no parser can depend on the layout of the
  text, and the end of the list stands for the end token.
-/
import Treewalk.Token.Basic

namespace Treewalk

inductive SyntaxError where
  /-- A token stands where an operand must start. -/
  | noOperand (found : Kind)
  /-- A token stands where one of another kind must. -/
  | unexpected (wanted found : Kind)
  /-- A numeral is above the greatest number. -/
  | tooLarge (numeral : String)
  /-- Expressions and blocks are nested beyond the limit. -/
  | tooDeep
  deriving DecidableEq, Repr

/-- A failure: its cause, and the tokens from the offending one on. -/
structure Failure where
  error : SyntaxError
  unread : List Token
  deriving DecidableEq, Repr

/-- A parser reads tokens from the front of a list. -/
abbrev Parser := StateT (List Token) (Except Failure)

namespace Parser

variable {α : Type}

def kindOf : List Token → Kind
  | [] => .eof
  | t :: _ => t.kind

/-- The kind of the next token, which stays unread. -/
def peek : Parser Kind := fun unread => .ok (kindOf unread, unread)

/-- Reads the next token, of whatever kind. -/
def advance : Parser Unit := fun unread => .ok ((), unread.tail)

def fail (error : SyntaxError) : Parser α := fun unread => .error ⟨error, unread⟩

/-- Reads a token of the given kind, and answers its text. -/
def expect (wanted : Kind) : Parser String := fun unread =>
  match unread with
  | [] => .error ⟨.unexpected wanted .eof, []⟩
  | t :: rest =>
    if t.kind = wanted then .ok (t.text, rest)
    else .error ⟨.unexpected wanted t.kind, t :: rest⟩

/-- Reads the next token if it is of the given kind, and answers whether it was. -/
def accept (kind : Kind) : Parser Bool := do
  if (← peek) = kind then
    advance
    return true
  else
    return false

/-- Takes steps until one answers `none`.  A step that answers anything else is to read a
    token, so there are at most as many of those as there are tokens in `budget`; one step
    more finds the end. -/
def loopWithin (step : α → Parser (Option α)) : List Token → α → Parser α
  | [], a => do return (← step a).getD a
  | _ :: budget, a => do
    match ← step a with
    | none => return a
    | some b => loopWithin step budget b

/-- Takes steps, each from the result of the one before, until one answers `none`. -/
def loop (step : α → Parser (Option α)) (a : α) : Parser α := do
  loopWithin step (← get) a

/-- Reads items with commas between them up to a closing parenthesis, which is read too. -/
def commaSeparated (item : Parser α) : Parser (List α) := do
  if ← accept .rightParen then
    return []
  else
    let first ← item
    let reversed ← loop (fun reversed => do
      if ← accept .comma then
        return some ((← item) :: reversed)
      else
        return none) [first]
    discard <| expect .rightParen
    return reversed.reverse

/-! ### Sequences of parsers -/

/-- A parser goes on with the tokens that the one before it left; a failure ends both. -/
theorem bind_apply {β : Type} (p : Parser α) (next : α → Parser β) (unread : List Token) :
    (p >>= next) unread =
      match p unread with
      | .ok (a, rest) => next a rest
      | .error f => .error f := by
  show StateT.bind p next unread = _
  simp only [StateT.bind]
  cases h : p unread <;> rfl

theorem pure_apply (a : α) (unread : List Token) :
    (pure a : Parser α) unread = .ok (a, unread) := rfl

theorem loop_apply (step : α → Parser (Option α)) (a : α) (unread : List Token) :
    loop step a unread = loopWithin step unread a unread := rfl

theorem loopWithin_cons_apply (step : α → Parser (Option α)) (t : Token) (budget : List Token)
    (a : α) (unread : List Token) :
    loopWithin step (t :: budget) a unread =
      match step a unread with
      | .ok (none, rest) => .ok (a, rest)
      | .ok (some b, rest) => loopWithin step budget b rest
      | .error f => .error f := by
  conv => lhs; unfold loopWithin
  rw [bind_apply]
  cases h : step a unread with
  | error f => rfl
  | ok r =>
    obtain ⟨next, rest⟩ := r
    cases next <;> rfl

end Parser

end Treewalk
