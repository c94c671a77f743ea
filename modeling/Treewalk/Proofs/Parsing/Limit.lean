/-
  Treewalk/Proofs/Parsing/Limit.lean
  ==================================
  **The limit on nesting decides nothing but whether parsing is given up.**
  With a higher limit every parser answers the same, except where it failed
  for nesting too deep.
-/
import Treewalk.Proofs.Parsing.Congruence

namespace Treewalk.Parser

variable {α β : Type}

/-- `p` answers what `q` answers, or gives up because of nesting. -/
def Approximates (p q : Parser α) : Prop :=
  ∀ u, p u = q u ∨ ∃ r, p u = .error ⟨.tooDeep, r⟩

/-! ### Composed parsers -/

theorem Approximates.refl (p : Parser α) : Approximates p p := fun _ => .inl rfl

theorem Approximates.bind {p q : Parser α} {next next' : α → Parser β} (h : Approximates p q)
    (hnext : ∀ a, Approximates (next a) (next' a)) : Approximates (p >>= next) (q >>= next') := by
  intro u
  rw [bind_apply, bind_apply]
  rcases h u with heq | ⟨r, heq⟩
  · rw [heq]
    cases q u with
    | error f => exact .inl rfl
    | ok result => exact hnext result.1 result.2
  · rw [heq]
    exact .inr ⟨r, rfl⟩

theorem Approximates.loopWithin {step step' : α → Parser (Option α)}
    (h : ∀ a, Approximates (step a) (step' a)) (budget : List Token) (a : α) :
    Approximates (loopWithin step budget a) (loopWithin step' budget a) := by
  induction budget generalizing a with
  | nil => exact (h a).bind fun _ => .refl _
  | cons t budget ih =>
    refine (h a).bind fun o => ?_
    cases o with
    | none => exact .refl _
    | some b => exact ih b

theorem Approximates.loop {step step' : α → Parser (Option α)}
    (h : ∀ a, Approximates (step a) (step' a)) (a : α) :
    Approximates (loop step a) (loop step' a) := by
  intro u
  exact Approximates.loopWithin h u a u

theorem Approximates.congruence : Congruence Approximates where
  bind := .bind
  loop _ := .loop
  next {_ p p'} hend hnext := by
    intro u
    cases u with
    | nil =>
      obtain ⟨o, hp, hp'⟩ := hend
      exact .inl (hp.trans hp'.symm)
    | cons t u =>
      rcases hnext t with ⟨o, hstay⟩ | ⟨q, q', hq, hread⟩
      · exact .inl ((hstay u).1.trans (hstay u).2.symm)
      · rw [(hread u).1, (hread u).2]
        exact hq u

/-! ### Higher limits -/

/-- A program is read the same with a higher limit, unless it is nested too deep for the
    lower one. -/
theorem approximates_program {limit limit' : Nat} (h : limit ≤ limit') :
    Approximates (program limit) (program limit') := by
  obtain ⟨k, rfl⟩ := Nat.exists_eq_add_of_le' h
  exact Approximates.congruence.program (fun _ u => .inr ⟨u, rfl⟩) (fun u => .inr ⟨u, rfl⟩) limit

/-- What is read, or refused for another reason than nesting, stays so with a higher limit. -/
theorem program_mono {limit limit' : Nat} (h : limit ≤ limit') {u : List Token}
    {result : Except Failure (Program × List Token)} (hu : program limit u = result)
    (hdeep : ∀ r, result ≠ .error ⟨.tooDeep, r⟩) : program limit' u = result := by
  rcases approximates_program h u with heq | ⟨r, heq⟩
  · exact heq.symm.trans hu
  · exact absurd (hu.symm.trans heq) (hdeep r)

end Treewalk.Parser
