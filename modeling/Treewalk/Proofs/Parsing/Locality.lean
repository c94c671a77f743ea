/-
  Treewalk/Proofs/Parsing/Locality.lean
  =====================================
  **A parser does not look ahead**: what it answers is decided by the tokens
  it has read and by the one behind them, and if it fails, by the tokens in
  front of the one that it refuses and by this one.  Any other tokens may come
  after that.
-/
import Treewalk.Proofs.Parsing.Congruence

namespace Treewalk.Parser

variable {α β : Type}

/-- The parser does the same on all lists of tokens that are the same up to and with the first
    token that it leaves unread. -/
def Local (p : Parser α) : Prop :=
  ∀ u x r, p u = stay x r → ∃ b, u = b ++ r ∧ ∀ t, t.head? = r.head? → p (b ++ t) = stay x t

theorem head?_append_congr {t r : List Token} (h : t.head? = r.head?) (b : List Token) :
    (b ++ t).head? = (b ++ r).head? := by
  rw [List.head?_append, List.head?_append, h]

theorem stay_eq_iff {x y : Except SyntaxError α} {u v : List Token} :
    stay x u = stay y v ↔ x = y ∧ u = v := by
  cases x <;> cases y <;> simp [stay, pure_apply, fail]

/-- Whatever a parser does, it leaves some tokens unread. -/
theorem exists_stay (result : Except Failure (α × List Token)) : ∃ x r, result = stay x r := by
  rcases result with ⟨e, r⟩ | ⟨a, r⟩
  · exact ⟨.error e, r, rfl⟩
  · exact ⟨.ok a, r, rfl⟩

theorem Local.stay (x : Except SyntaxError α) : Local (stay x) := by
  intro u y r h
  obtain ⟨rfl, rfl⟩ := stay_eq_iff.mp h
  exact ⟨[], rfl, fun t _ => rfl⟩

theorem Local.bind {p : Parser α} {next : α → Parser β} (h : Local p)
    (hnext : ∀ a, Local (next a)) : Local (p >>= next) := by
  intro u x r hu
  obtain ⟨y, v, hp⟩ := exists_stay (p u)
  rw [bind_apply, hp] at hu
  obtain ⟨b, rfl, hsame⟩ := h _ _ _ hp
  cases y with
  | error e =>
    obtain ⟨rfl, rfl⟩ : x = .error e ∧ r = v := by
      cases x <;> cases hu
      exact ⟨rfl, rfl⟩
    refine ⟨b, rfl, fun t ht => ?_⟩
    rw [bind_apply, hsame t ht]
    rfl
  | ok a =>
    obtain ⟨b', rfl, hsame'⟩ := hnext a v x r hu
    refine ⟨b ++ b', (List.append_assoc _ _ _).symm, fun t ht => ?_⟩
    rw [List.append_assoc, bind_apply, hsame _ (head?_append_congr ht b')]
    exact hsame' t ht

theorem Local.loop {step : α → Parser (Option α)} (hreading : Reading step)
    (h : ∀ a, Local (step a)) (a : α) : Local (loop step a) := by
  intro u
  induction hn : u.length using Nat.strongRecOn generalizing a u with
  | ind n ih =>
    intro x r hu
    obtain ⟨y, v, hstep⟩ := exists_stay (step a u)
    rw [loop_unfold hreading, hstep] at hu
    obtain ⟨b, rfl, hsame⟩ := h a _ _ _ hstep
    rcases y with e | _ | c
    · obtain ⟨rfl, rfl⟩ : x = .error e ∧ r = v := by
        cases x <;> cases hu
        exact ⟨rfl, rfl⟩
      refine ⟨b, rfl, fun t ht => ?_⟩
      rw [loop_unfold hreading, hsame t ht]
      rfl
    · obtain ⟨rfl, rfl⟩ := stay_eq_iff.mp (show Parser.stay (.ok a) v = Parser.stay x r from hu)
      refine ⟨b, rfl, fun t ht => ?_⟩
      rw [loop_unfold hreading, hsame t ht]
      rfl
    · have hless : v.length < n := hn ▸ hreading _ _ _ _ hstep
      obtain ⟨b', rfl, hsame'⟩ := ih v.length hless c v rfl x r hu
      refine ⟨b ++ b', (List.append_assoc _ _ _).symm, fun t ht => ?_⟩
      rw [List.append_assoc, loop_unfold hreading, hsame _ (head?_append_congr ht b')]
      exact hsame' t ht

theorem Local.congruence : Congruence fun p _ => Local p where
  bind := .bind
  loop := .loop
  next hend hnext := by
    intro u x r hu
    cases u with
    | nil =>
      obtain ⟨o, hstay, -⟩ := hend
      obtain ⟨rfl, rfl⟩ := stay_eq_iff.mp (hstay.symm.trans hu)
      refine ⟨[], rfl, fun t ht => ?_⟩
      obtain rfl := List.head?_eq_none_iff.mp ht
      exact hstay
    | cons t u =>
      rcases hnext t with ⟨o, hstay⟩ | ⟨q, _, hq, hread⟩
      · obtain ⟨rfl, rfl⟩ := stay_eq_iff.mp ((hstay u).1.symm.trans hu)
        refine ⟨[], rfl, fun w hw => ?_⟩
        obtain ⟨w', rfl⟩ := List.head?_eq_some_iff.mp hw
        exact (hstay w').1
      · obtain ⟨b, rfl, hsame⟩ := hq u x r ((hread u).1.symm.trans hu)
        exact ⟨t :: b, rfl, fun w hw => (hread (b ++ w)).1.trans (hsame w hw)⟩

theorem local_expression_block (limit : Nat) :
    (∀ p, Local (expression limit p)) ∧ Local (block limit) :=
  Local.congruence.expression_block (k := 0) (fun _ => .stay (.error .tooDeep))
    (.stay (.error .tooDeep)) limit

theorem local_statement (limit : Nat) : Local (statement (expression limit) (block limit)) :=
  have ⟨hexpr, hblock⟩ := local_expression_block limit
  @Congruence.statement _ Local.congruence _ (expression limit) _ (block limit) hexpr hblock

theorem local_statements (limit : Nat) (isEnd : Kind → Bool) :
    Local (statements (expression limit) (block limit) isEnd) :=
  have ⟨hexpr, hblock⟩ := local_expression_block limit
  @Congruence.statements _ Local.congruence _ (expression limit) _ (block limit) hexpr hblock
    (shrinking_expression limit) (shrinking_block limit) isEnd

theorem local_program (limit : Nat) : Local (program limit) :=
  Local.congruence.program (k := 0) (fun _ => .stay (.error .tooDeep)) (.stay (.error .tooDeep))
    limit

end Treewalk.Parser
