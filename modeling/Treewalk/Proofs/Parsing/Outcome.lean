/-
  Treewalk/Proofs/Parsing/Outcome.lean
  ====================================
  **When a composed parser succeeds**: one equivalence for every way of
  composing parsers, from the success of the whole to what its parts have
  read.  The direction from left to right is used to show that only phrases of
  the grammar are read, and the other one that all of them are.  Sequences and
  loops have a second one, for their failure.

  A loop is described by the steps it has taken, `Runs`.  That it takes the
  last step is true of a step that always reads something (`Reading`), because
  the budget of a loop is the list of tokens that it starts with.
-/
import Treewalk.Parser.Basic

namespace Treewalk.Parser

variable {α β : Type}

/-- `u` is a token of the given kind with `r` behind it, whatever its text. -/
def Starts (k : Kind) (u r : List Token) : Prop := ∃ t : Token, t.kind = k ∧ u = t :: r

theorem Starts.length {k : Kind} {u r : List Token} (h : Starts k u r) :
    u.length = r.length + 1 := by
  obtain ⟨t, -, rfl⟩ := h
  rfl

theorem Starts.kindOf {k : Kind} {u r : List Token} (h : Starts k u r) : kindOf u = k := by
  obtain ⟨t, rfl, rfl⟩ := h
  rfl

theorem Starts.tail {k : Kind} {u r : List Token} (h : Starts k u r) : r = u.tail := by
  obtain ⟨t, -, rfl⟩ := h
  rfl

theorem Starts.append {k : Kind} {u r : List Token} (h : Starts k u r) (v : List Token) :
    Starts k (u ++ v) (r ++ v) := by
  obtain ⟨t, hk, rfl⟩ := h
  exact ⟨t, hk, rfl⟩

theorem starts_of_kindOf {k : Kind} {u : List Token} (hk : k ≠ .eof) (h : kindOf u = k) :
    Starts k u u.tail := by
  cases u with
  | nil => exact absurd h.symm hk
  | cons t u => exact ⟨t, h, rfl⟩

/-! ### Sequences -/

theorem bind_ok {p : Parser α} {next : α → Parser β} {u r : List Token} {b : β} :
    (p >>= next) u = .ok (b, r) ↔ ∃ a v, p u = .ok (a, v) ∧ next a v = .ok (b, r) := by
  rw [bind_apply]
  cases h : p u with
  | error f => simp
  | ok result =>
    obtain ⟨a, v⟩ := result
    constructor
    · intro hnext
      exact ⟨a, v, rfl, hnext⟩
    · rintro ⟨a', v', heq, hnext⟩
      cases heq
      exact hnext

theorem bind_error {p : Parser α} {next : α → Parser β} {u : List Token} {f : Failure} :
    (p >>= next) u = .error f ↔
      p u = .error f ∨ ∃ a v, p u = .ok (a, v) ∧ next a v = .error f := by
  rw [bind_apply]
  cases h : p u with
  | error g => simp
  | ok result =>
    obtain ⟨a, v⟩ := result
    constructor
    · intro hnext
      exact .inr ⟨a, v, rfl, hnext⟩
    · rintro (herror | ⟨a', v', heq, hnext⟩)
      · cases herror
      · cases heq
        exact hnext

theorem pure_ok {a b : α} {u r : List Token} :
    (pure a : Parser α) u = .ok (b, r) ↔ b = a ∧ r = u := by
  rw [pure_apply]
  simp [eq_comm]

theorem map_apply (f : α → β) (p : Parser α) (u : List Token) :
    (f <$> p) u =
      match p u with
      | .ok (a, r) => .ok (f a, r)
      | .error e => .error e := by
  rw [← bind_pure_comp, bind_apply]
  rfl

theorem map_ok {p : Parser α} {f : α → β} {u r : List Token} {b : β} :
    (f <$> p) u = .ok (b, r) ↔ ∃ a, p u = .ok (a, r) ∧ b = f a := by
  rw [← bind_pure_comp, bind_ok]
  simp only [pure_ok]
  constructor
  · rintro ⟨a, v, h, rfl, rfl⟩
    exact ⟨a, h, rfl⟩
  · rintro ⟨a, h, rfl⟩
    exact ⟨a, r, h, rfl, rfl⟩

theorem peek_ok {u r : List Token} {k : Kind} : peek u = .ok (k, r) ↔ k = kindOf u ∧ r = u := by
  simp [peek, eq_comm]

theorem expect_ok {k : Kind} {u r : List Token} {x : String} :
    expect k u = .ok (x, r) ↔ ∃ t : Token, t.kind = k ∧ t.text = x ∧ u = t :: r := by
  constructor
  · intro h
    cases u with
    | nil => simp [expect] at h
    | cons t u =>
      simp only [expect] at h
      split at h
      · next hk =>
        cases h
        exact ⟨t, hk, rfl, rfl⟩
      · cases h
  · rintro ⟨t, hk, rfl, rfl⟩
    simp [expect, hk]

theorem discard_expect_ok {k : Kind} {u r : List Token} {x : PUnit} :
    (discard (expect k) : Parser PUnit) u = .ok (x, r) ↔ Starts k u r := by
  have hmap : (discard (expect k) : Parser PUnit) = (fun _ => PUnit.unit) <$> expect k := rfl
  rw [hmap, map_ok]
  constructor
  · rintro ⟨text, h, -⟩
    obtain ⟨t, hk, -, hu⟩ := expect_ok.mp h
    exact ⟨t, hk, hu⟩
  · rintro ⟨t, hk, hu⟩
    exact ⟨t.text, expect_ok.mpr ⟨t, hk, rfl, hu⟩, rfl⟩

theorem accept_apply (k : Kind) (u : List Token) :
    accept k u = if kindOf u = k then .ok (true, u.tail) else .ok (false, u) := by
  show (peek >>= fun found =>
    if found = k then advance >>= fun _ => pure true else pure false) u = _
  rw [bind_apply]
  by_cases h : kindOf u = k
  · simp only [peek, h, if_true]
    rfl
  · simp only [peek, h, if_false]
    rfl

theorem ifAccept_apply (k : Kind) (p q : Parser α) (u : List Token) :
    (do if ← accept k then p else q : Parser α) u = if kindOf u = k then p u.tail else q u := by
  rw [bind_apply, accept_apply]
  by_cases h : kindOf u = k <;> simp [h]

theorem accept_ok {k : Kind} (hk : k ≠ .eof) {u r : List Token} {b : Bool} :
    accept k u = .ok (b, r) ↔
      (b = true ∧ Starts k u r) ∨ (b = false ∧ kindOf u ≠ k ∧ r = u) := by
  rw [accept_apply]
  by_cases h : kindOf u = k
  · have hstarts := starts_of_kindOf hk h
    simp only [h, if_true, Except.ok.injEq, Prod.mk.injEq, ne_eq, not_true_eq_false, false_and,
      and_false, or_false]
    constructor
    · rintro ⟨rfl, rfl⟩
      exact ⟨rfl, hstarts⟩
    · rintro ⟨rfl, t, -, rfl⟩
      exact ⟨rfl, rfl⟩
  · have hno : ¬ Starts k u r := fun hs => h hs.kindOf
    simp only [h, if_false, Except.ok.injEq, Prod.mk.injEq, hno, and_false, false_or, ne_eq,
      not_false_eq_true, true_and]
    exact ⟨fun ⟨hb, hr⟩ => ⟨hb.symm, hr.symm⟩, fun ⟨hb, hr⟩ => ⟨hb.symm, hr.symm⟩⟩

/-! ### Loops -/

/-- A step that goes on has read at least one token. -/
def Reading (step : α → Parser (Option α)) : Prop :=
  ∀ a u b v, step a u = .ok (some b, v) → v.length < u.length

/-- Steps from one state of a loop to another. -/
inductive Runs (step : α → Parser (Option α)) : α → List Token → α → List Token → Prop where
  | refl {a u} : Runs step a u a u
  | head {a u b v c w} : step a u = .ok (some b, v) → Runs step b v c w → Runs step a u c w

theorem Runs.trans {step : α → Parser (Option α)} {a b c : α} {u v w : List Token}
    (h : Runs step a u b v) (h' : Runs step b v c w) : Runs step a u c w := by
  induction h with
  | refl => exact h'
  | head hstep _ ih => exact .head hstep (ih h')

theorem Runs.tail {step : α → Parser (Option α)} {a b c : α} {u v w : List Token}
    (h : Runs step a u b v) (hstep : step b v = .ok (some c, w)) : Runs step a u c w :=
  h.trans (.head hstep .refl)

theorem Runs.length_le {step : α → Parser (Option α)} (hreading : Reading step) {a b : α}
    {u v : List Token} (h : Runs step a u b v) : v.length ≤ u.length := by
  induction h with
  | refl => exact Nat.le_refl _
  | head hstep _ ih => exact Nat.le_trans ih (Nat.le_of_lt (hreading _ _ _ _ hstep))

theorem loopWithin_apply {step : α → Parser (Option α)} (hreading : Reading step)
    {budget u : List Token} {a : α} (hbudget : u.length ≤ budget.length) :
    loopWithin step budget a u =
      match step a u with
      | .ok (none, r) => .ok (a, r)
      | .ok (some b, v) => loopWithin step budget.tail b v
      | .error f => .error f := by
  cases budget with
  | nil =>
    rw [loopWithin, bind_apply]
    rcases hstep : step a u with f | ⟨_ | c, v⟩
    · rfl
    · rfl
    -- no token is left, so a step that goes on has nothing to read
    · have hless := hreading _ _ _ _ hstep
      simp only [List.length_nil] at hbudget
      omega
  | cons t budget => exact loopWithin_cons_apply step t budget a u

/-- Every budget that is as long as the tokens is enough. -/
theorem loopWithin_budget {step : α → Parser (Option α)} (hreading : Reading step)
    {budget budget' u : List Token} {a : α} (h : u.length ≤ budget.length)
    (h' : u.length ≤ budget'.length) :
    loopWithin step budget a u = loopWithin step budget' a u := by
  induction hn : u.length using Nat.strongRecOn generalizing budget budget' u a with
  | ind n ih =>
    rw [loopWithin_apply hreading h, loopWithin_apply hreading h']
    rcases hstep : step a u with f | ⟨_ | c, v⟩
    · rfl
    · rfl
    · have hless := hreading _ _ _ _ hstep
      have hv : v.length ≤ budget.tail.length := by
        rw [List.length_tail]
        omega
      have hv' : v.length ≤ budget'.tail.length := by
        rw [List.length_tail]
        omega
      exact ih v.length (hn ▸ hless) hv hv' rfl

/-- A loop takes its first step and goes on from there. -/
theorem loop_unfold {step : α → Parser (Option α)} (hreading : Reading step) (a : α)
    (u : List Token) :
    loop step a u =
      match step a u with
      | .ok (none, r) => .ok (a, r)
      | .ok (some b, v) => loop step b v
      | .error f => .error f := by
  rw [loop_apply, loopWithin_apply hreading (Nat.le_refl _)]
  rcases hstep : step a u with f | ⟨_ | c, v⟩
  · rfl
  · rfl
  · have hless := hreading _ _ _ _ hstep
    have hv : v.length ≤ u.tail.length := by
      rw [List.length_tail]
      omega
    exact loopWithin_budget hreading hv (Nat.le_refl _)

/-- Taking steps first changes nothing about a loop. -/
theorem Runs.loop_eq {step : α → Parser (Option α)} (hreading : Reading step) {a b : α}
    {u v : List Token} (h : Runs step a u b v) : loop step a u = loop step b v := by
  induction h with
  | refl => rfl
  | head hstep _ ih =>
    rw [loop_unfold hreading, hstep]
    exact ih

/-- Sooner or later a loop gets to where its step does not go on. -/
theorem exists_runs {step : α → Parser (Option α)} (hreading : Reading step) (a : α)
    (u : List Token) : ∃ b v, Runs step a u b v ∧ ∀ c w, step b v ≠ .ok (some c, w) := by
  induction hn : u.length using Nat.strongRecOn generalizing a u with
  | ind n ih =>
    by_cases hstep : ∃ c w, step a u = .ok (some c, w)
    · obtain ⟨c, w, hstep⟩ := hstep
      have hless : w.length < n := hn ▸ hreading _ _ _ _ hstep
      obtain ⟨b, v, hruns, hend⟩ := ih w.length hless c w rfl
      exact ⟨b, v, .head hstep hruns, hend⟩
    · refine ⟨a, u, .refl, ?_⟩
      intro c w h
      exact hstep ⟨c, w, h⟩

theorem loop_ok {step : α → Parser (Option α)} (hreading : Reading step) {u r : List Token}
    {a b : α} :
    loop step a u = .ok (b, r) ↔ ∃ v, Runs step a u b v ∧ step b v = .ok (none, r) := by
  constructor
  · intro h
    obtain ⟨b', v, hruns, hend⟩ := exists_runs hreading a u
    rw [hruns.loop_eq hreading, loop_unfold hreading] at h
    rcases hstep : step b' v with f | ⟨_ | c, w⟩
    · simp [hstep] at h
    · simp only [hstep, Except.ok.injEq, Prod.mk.injEq] at h
      obtain ⟨rfl, rfl⟩ := h
      exact ⟨v, hruns, hstep⟩
    · exact absurd hstep (hend c w)
  · rintro ⟨v, hruns, hend⟩
    rw [hruns.loop_eq hreading, loop_unfold hreading, hend]

theorem loop_error {step : α → Parser (Option α)} (hreading : Reading step) {u : List Token}
    {a : α} {f : Failure} :
    loop step a u = .error f ↔ ∃ b v, Runs step a u b v ∧ step b v = .error f := by
  constructor
  · intro h
    obtain ⟨b, v, hruns, hend⟩ := exists_runs hreading a u
    rw [hruns.loop_eq hreading, loop_unfold hreading] at h
    rcases hstep : step b v with f | ⟨_ | c, w⟩
    · simp only [hstep, Except.error.injEq] at h
      obtain rfl := h
      exact ⟨b, v, hruns, hstep⟩
    · simp [hstep] at h
    · exact absurd hstep (hend c w)
  · rintro ⟨b, v, hruns, hstep⟩
    rw [hruns.loop_eq hreading, loop_unfold hreading, hstep]

/-! ### Items between parentheses -/

/-- A parser that reads at least one token. -/
def Shrinking (p : Parser α) : Prop := ∀ u a r, p u = .ok (a, r) → r.length < u.length

theorem shrinking_expect (k : Kind) : Shrinking (expect k) := by
  intro u x r h
  obtain ⟨t, -, -, rfl⟩ := expect_ok.mp h
  exact Nat.lt_succ_self _

/-- Reads a comma and one more item, or nothing. -/
def nextItem (item : Parser α) (reversed : List α) : Parser (Option (List α)) := do
  if ← accept .comma then
    return some ((← item) :: reversed)
  else
    return none

theorem nextItem_some {item : Parser α} {xs ys : List α} {u r : List Token} :
    nextItem item xs u = .ok (some ys, r) ↔
      ∃ v x, Starts .comma u v ∧ item v = .ok (x, r) ∧ ys = x :: xs := by
  simp only [nextItem, bind_ok, accept_ok (k := .comma) (by decide)]
  constructor
  · rintro ⟨b, v, (⟨rfl, hcomma⟩ | ⟨rfl, -, rfl⟩), h⟩
    · simp only [if_true, bind_ok, pure_ok] at h
      obtain ⟨x, w, hitem, hys, rfl⟩ := h
      exact ⟨v, x, hcomma, hitem, Option.some.inj hys⟩
    · simp [pure_ok] at h
  · rintro ⟨v, x, hcomma, hitem, rfl⟩
    refine ⟨true, v, .inl ⟨rfl, hcomma⟩, ?_⟩
    simp only [if_true, bind_ok, pure_ok]
    exact ⟨x, r, hitem, rfl, rfl⟩

theorem nextItem_none {item : Parser α} {xs : List α} {u r : List Token} :
    nextItem item xs u = .ok (none, r) ↔ kindOf u ≠ .comma ∧ r = u := by
  simp only [nextItem, bind_ok, accept_ok (k := .comma) (by decide)]
  constructor
  · rintro ⟨b, v, (⟨rfl, hcomma⟩ | ⟨rfl, hno, rfl⟩), h⟩
    · simp only [if_true, bind_ok, pure_ok, reduceCtorEq, false_and, and_false, exists_false] at h
    · simp only [Bool.false_eq_true, if_false, pure_ok] at h
      exact ⟨hno, h.2⟩
  · rintro ⟨hno, rfl⟩
    exact ⟨false, r, .inr ⟨rfl, hno, rfl⟩, by simp [pure_ok]⟩

theorem reading_nextItem {item : Parser α} (hitem : Shrinking item) : Reading (nextItem item) := by
  intro xs u ys r h
  obtain ⟨v, x, hcomma, hx, -⟩ := nextItem_some.mp h
  have := hcomma.length
  have := hitem v x r hx
  omega

theorem commaSeparated_ok {item : Parser α} (hitem : Shrinking item) {u r : List Token}
    {xs : List α} :
    commaSeparated item u = .ok (xs, r) ↔
      (Starts .rightParen u r ∧ xs = []) ∨
        (kindOf u ≠ .rightParen ∧ ∃ x v ys w, item u = .ok (x, v) ∧
          Runs (nextItem item) [x] v ys w ∧ kindOf w ≠ .comma ∧ Starts .rightParen w r ∧
          xs = ys.reverse) := by
  have hloop : ∀ x, (loop (nextItem item) [x] : Parser (List α)) = loop (fun reversed => do
      if ← accept .comma then
        return some ((← item) :: reversed)
      else
        return none) [x] := fun x => rfl
  simp only [commaSeparated, ← hloop, bind_ok, accept_ok (k := .rightParen) (by decide)]
  constructor
  · rintro ⟨b, v, (⟨rfl, hclose⟩ | ⟨rfl, hno, rfl⟩), h⟩
    · simp only [if_true, pure_ok] at h
      obtain ⟨rfl, rfl⟩ := h
      exact .inl ⟨hclose, rfl⟩
    · simp only [Bool.false_eq_true, if_false, bind_ok, pure_ok, discard_expect_ok,
        loop_ok (reading_nextItem hitem), nextItem_none] at h
      obtain ⟨x, w, hx, ys, w', ⟨w'', hruns, hcomma, rfl⟩, -, z, hclose, rfl, rfl⟩ := h
      exact .inr ⟨hno, x, w, ys, w', hx, hruns, hcomma, hclose, rfl⟩
  · rintro (⟨hclose, rfl⟩ | ⟨hno, x, v, ys, w, hx, hruns, hcomma, hclose, rfl⟩)
    · exact ⟨true, r, .inl ⟨rfl, hclose⟩, by simp [pure_ok]⟩
    · refine ⟨false, u, .inr ⟨rfl, hno, rfl⟩, ?_⟩
      simp only [Bool.false_eq_true, if_false, bind_ok, pure_ok, discard_expect_ok,
        loop_ok (reading_nextItem hitem), nextItem_none]
      exact ⟨x, v, hx, ys, w, ⟨w, hruns, hcomma, rfl⟩, (), r, hclose, rfl, rfl⟩

end Treewalk.Parser
