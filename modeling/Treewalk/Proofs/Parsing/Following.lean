/-
  Treewalk/Proofs/Parsing/Following.lean
  ======================================
  **Scripts that do as a parser does**, for each way of composing them.  Such a
  script comes to an end, with the result that the parser comes to if its limit
  on nesting allows it, and the number of calls that are active on the way is
  what the limit is compared with.
-/
import Mathlib.Data.Set.Operations
import Mathlib.Order.Bounds.Defs
import Treewalk.Proofs.Parsing.Calls
import Treewalk.Proofs.Parsing.Outcome

namespace Treewalk

variable {α β γ : Type}

/-! ### Parsers that are not limited -/

namespace Parser

/-- The parser does not refuse anything for nesting too deep. -/
def Shallow (p : Parser α) : Prop := ∀ u r, p u ≠ .error ⟨.tooDeep, r⟩

theorem Shallow.map {p : Parser α} (h : Shallow p) (f : α → β) : Shallow (f <$> p) := by
  intro u r hr
  rw [map_apply] at hr
  cases hp : p u with
  | ok result => simp [hp] at hr
  | error e =>
    simp only [hp, Except.error.injEq] at hr
    exact h u r (hp.trans (congrArg Except.error hr))

theorem shallow_pure (a : α) : Shallow (pure a : Parser α) := by
  intro u r hr
  cases hr

theorem shallow_fail {e : SyntaxError} (he : e ≠ .tooDeep) : Shallow (fail e : Parser α) := by
  intro u r hr
  cases hr
  exact he rfl

theorem shallow_expect (k : Kind) : Shallow (expect k) := by
  intro u r
  cases u with
  | nil => simp [expect]
  | cons t u =>
    simp only [expect]
    split <;> simp

theorem shallow_accept (k : Kind) : Shallow (accept k) := by
  intro u r
  rw [accept_apply]
  split <;> simp

theorem shrinking_skip (k : Kind) : Shrinking (discard (expect k) : Parser PUnit) := by
  intro u x r h
  have := (discard_expect_ok.mp h).length
  omega

end Parser

/-! ### Paths -/

namespace Parsing

/-- Steps from one stage to another, with the greatest number of calls that are active at a time
    on the way. -/
inductive Path : Parsing → Nat → Parsing → Prop where
  | refl {s} : Path s s.depth s
  | head {s m t} : Path s.step m t → Path s (max s.depth m) t

theorem Path.depth_le {s t : Parsing} {m : Nat} (h : Path s m t) : s.depth ≤ m := by
  cases h with
  | refl => exact Nat.le_refl _
  | head h => exact Nat.le_max_left _ _

theorem Path.trans {s t r : Parsing} {m m' : Nat} (h : Path s m t) (h' : Path t m' r) :
    Path s (max m m') r := by
  induction h with
  | refl => rwa [Nat.max_eq_right h'.depth_le]
  | head _ ih =>
    rw [Nat.max_assoc]
    exact .head (ih h')

/-- One step more in front, if it is from a stage with no more calls. -/
theorem Path.cons {s s' t : Parsing} {m : Nat} (hstep : s.step = s') (h : Path s' m t)
    (hdepth : s.depth ≤ m) : Path s m t := by
  rw [← Nat.max_eq_right hdepth]
  exact .head (hstep ▸ h)

theorem iterate_ended (n : Nat) (result : Except Halt Program) :
    step^[n] (ended result) = ended result :=
  Function.iterate_fixed rfl n

/-- There is only one end. -/
theorem ended_unique {s : Parsing} {n m : Nat} {result result' : Except Halt Program}
    (h : step^[n] s = ended result) (h' : step^[m] s = ended result') : result = result' := by
  have hlate : ∀ k, step^[k + n] s = ended result := fun k => by
    rw [Function.iterate_add_apply, h, iterate_ended]
  have hlate' : step^[n + m] s = ended result' := by
    rw [Function.iterate_add_apply, h', iterate_ended]
  rw [Nat.add_comm, hlate] at hlate'
  exact ended.inj hlate'

theorem missing_of_isStuck {s : Parsing} (h : s.isStuck = true) :
    ∃ kind, s.step = ended (.error (.missing kind)) := by
  unfold isStuck at h
  split at h
  · next kind unread => exact ⟨kind, rfl⟩
  · cases h

theorem Path.exists_iterate {s t : Parsing} {m : Nat} (h : Path s m t) :
    ∃ n, step^[n] s = t := by
  induction h with
  | refl => exact ⟨0, rfl⟩
  | head _ ih =>
    obtain ⟨n, hn⟩ := ih
    exact ⟨n + 1, hn⟩

/-- On a path to the end, as many calls are active as ever are. -/
theorem Path.isGreatest {s : Parsing} {m : Nat} {result : Except Halt Program}
    (h : Path s m (ended result)) : IsGreatest (Set.range fun n => (step^[n] s).depth) m := by
  generalize ht : ended result = t at h
  induction h with
  | refl =>
    subst ht
    refine ⟨⟨0, rfl⟩, ?_⟩
    rintro _ ⟨n, rfl⟩
    exact Nat.le_of_eq (congrArg depth (iterate_ended n result))
  | @head s m t _ ih =>
    obtain ⟨⟨k, hk⟩, hbound⟩ := ih ht
    constructor
    · rcases Nat.le_total s.depth m with hle | hle
      · exact ⟨k + 1, hk.trans (Nat.max_eq_right hle).symm⟩
      · exact ⟨0, (Nat.max_eq_left hle).symm⟩
    · rintro _ ⟨_ | i, rfl⟩
      · exact Nat.le_max_left _ _
      · exact Nat.le_trans (hbound ⟨i, rfl⟩) (Nat.le_max_right _ _)

/-- Where parsing is when a script has come to a result. -/
def reached (calls : Calls β) (next : α → Script β) :
    Except Failure (α × List Token) → Parsing
  | .ok (a, rest) => active calls (next a) rest
  | .error f => ended (.error (.refused f))

theorem depth_reached_le (calls : Calls β) (next : α → Script β)
    (result : Except Failure (α × List Token)) :
    (reached calls next result).depth ≤ calls.depth := by
  rcases result with f | ⟨a, rest⟩
  · exact Nat.zero_le _
  · exact Nat.le_refl _

end Parsing

/-! ### Scripts that follow a parser -/

namespace Script

open Parsing

/-- With so many calls active, the script comes to a result on some tokens, and at most `deepest`
    calls are active on the way.  The parser comes to the same result if its limit on nesting is
    not lower, and it refuses them for nesting too deep if it is. -/
structure Follows (active : Nat) (w : Script α) (q : Nat → Parser α) (u : List Token)
    (result : Except Failure (α × List Token)) (deepest : Nat) : Prop where
  path : ∀ {β : Type} (calls : Calls β) (next : α → Script β), calls.depth = active →
    Path (.active calls (w >>= next) u) deepest (reached calls next result)
  within : ∀ limit, deepest ≤ limit → q limit u = result
  beyond : ∀ limit, active ≤ limit → limit < deepest → ∃ r, q limit u = .error ⟨.tooDeep, r⟩
  other : ∀ r, result ≠ .error ⟨.tooDeep, r⟩
  active_le : active ≤ deepest

/-- With so many calls active, the script comes to an end on some tokens, as the parser does, and
    makes at most `more` calls one inside the other. -/
def Ends (active more : Nat) (w : Script α) (q : Nat → Parser α) (u : List Token) : Prop :=
  ∃ result deepest, deepest ≤ active + more ∧ Follows active w q u result deepest

namespace Ends

variable {active more : Nat} {w : Script α} {q q' : Nat → Parser α} {u v : List Token}

theorem mono {more' : Nat} (h : Ends active more w q u) (hmore : more ≤ more') :
    Ends active more' w q u := by
  obtain ⟨result, deepest, hdeepest, hfollows⟩ := h
  exact ⟨result, deepest, by omega, hfollows⟩

/-- The parser may be any other one that does the same with limits that are not used up. -/
theorem congr (h : Ends active more w q u)
    (hq : ∀ limit, active ≤ limit → q' limit u = q limit u) : Ends active more w q' u := by
  obtain ⟨result, deepest, hdeepest, hfollows⟩ := h
  refine ⟨result, deepest, hdeepest, hfollows.path, ?_, ?_, hfollows.other, hfollows.active_le⟩
  · intro limit hlimit
    rw [hq limit (Nat.le_trans hfollows.active_le hlimit)]
    exact hfollows.within limit hlimit
  · intro limit hactive hlimit
    rw [hq limit hactive]
    exact hfollows.beyond limit hactive hlimit

/-- The script may start with a step that changes nothing but what is to be done. -/
theorem step {w' : Script α} (h : Ends active more w' q v)
    (hstep : ∀ {β : Type} (calls : Calls β) (next : α → Script β),
      (Parsing.active calls (w >>= next) u).step = .active calls (w' >>= next) v)
    (hq : ∀ limit, q' limit u = q limit v) : Ends active more w q' u := by
  obtain ⟨result, deepest, hdeepest, hfollows⟩ := h
  refine ⟨result, deepest, hdeepest, ?_, ?_, ?_, hfollows.other, hfollows.active_le⟩
  · intro β calls next hcalls
    refine .cons (hstep calls next) (hfollows.path calls next hcalls) ?_
    exact Nat.le_trans (Nat.le_of_eq hcalls) hfollows.active_le
  · intro limit hlimit
    rw [hq]
    exact hfollows.within limit hlimit
  · intro limit hactive hlimit
    rw [hq]
    exact hfollows.beyond limit hactive hlimit

theorem bind {next : α → Script β} {q' : Nat → α → Parser β} (h : Ends active more w q u)
    (hnext : ∀ limit a v, q limit u = .ok (a, v) →
      Ends active more (next a) (fun limit => q' limit a) v) :
    Ends active more (w >>= next) (fun limit => q limit >>= q' limit) u := by
  obtain ⟨result, deepest, hdeepest, hfollows⟩ := h
  cases result with
  | error f =>
    refine ⟨.error f, deepest, hdeepest, ?_, ?_, ?_, ?_, hfollows.active_le⟩
    · intro γ calls k hcalls
      rw [Script.bind_assoc]
      exact hfollows.path calls _ hcalls
    · intro limit hlimit
      rw [Parser.bind_apply, hfollows.within limit hlimit]
    · intro limit hactive hlimit
      obtain ⟨r, hr⟩ := hfollows.beyond limit hactive hlimit
      exact ⟨r, by rw [Parser.bind_apply, hr]⟩
    · intro r hr
      cases hr
      exact hfollows.other r rfl
  | ok result =>
    obtain ⟨a, v⟩ := result
    have hread := hfollows.within deepest (Nat.le_refl _)
    obtain ⟨result', deepest', hdeepest', hfollows'⟩ := hnext deepest a v hread
    refine ⟨result', max deepest deepest', Nat.max_le.mpr ⟨hdeepest, hdeepest'⟩, ?_, ?_, ?_,
      hfollows'.other, Nat.le_trans hfollows.active_le (Nat.le_max_left _ _)⟩
    · intro γ calls k hcalls
      rw [Script.bind_assoc]
      exact (hfollows.path calls _ hcalls).trans (hfollows'.path calls k hcalls)
    · intro limit hlimit
      obtain ⟨hfirst, hsecond⟩ := Nat.max_le.mp hlimit
      rw [Parser.bind_apply, hfollows.within limit hfirst]
      exact hfollows'.within limit hsecond
    · intro limit hactive hlimit
      -- too many calls are active in the first part already, or only in the second one
      rcases Nat.lt_or_ge limit deepest with hless | hge
      · obtain ⟨r, hr⟩ := hfollows.beyond limit hactive hless
        exact ⟨r, by rw [Parser.bind_apply, hr]⟩
      · rw [Parser.bind_apply, hfollows.within limit hge]
        exact hfollows'.beyond limit hactive (by omega)

/-- A script that makes no calls ends as the parser does, which does not depend on the limit. -/
theorem of_path {p : Parser α} (hp : Parser.Shallow p)
    (hpath : ∀ {β : Type} (calls : Calls β) (next : α → Script β),
      Path (.active calls (w >>= next) u) calls.depth (reached calls next (p u))) :
    Ends active more w (fun _ => p) u := by
  refine ⟨p u, active, Nat.le_add_right _ _, ?_, fun _ _ => rfl, ?_, hp u, Nat.le_refl _⟩
  · rintro β calls next rfl
    exact hpath calls next
  · intro limit hactive hlimit
    exact absurd hlimit (Nat.not_lt.mpr hactive)

theorem pure (a : α) : Ends active more (Pure.pure a) (fun _ => Pure.pure a) u :=
  .of_path (Parser.shallow_pure a) fun _ _ => .refl

/-- Where a parser is a part of the script, both do the same. -/
theorem lift {p : Parser α} (hp : Parser.Shallow p) :
    Ends active more (.lift p) (fun _ => p) u := by
  refine .of_path hp fun calls next => ?_
  have hstep : (Parsing.active calls (.lift p >>= next) u).step = reached calls next (p u) := by
    show (match p u with
      | .ok (b, rest) => Parsing.active calls (Script.done b >>= next) rest
      | .error f => ended (.error (.refused f))) = _
    rcases p u with f | ⟨a, rest⟩ <;> rfl
  rw [← Nat.max_eq_left (depth_reached_le calls next (p u))]
  exact .head (hstep ▸ .refl)

/-- A script starts by reading what a parser always reads there. -/
theorem read {p : Parser β} {b : β} {next : β → Script α} (hp : p u = .ok (b, v))
    (h : Ends active more (next b) q v) (hq : ∀ limit, q' limit u = q limit v) :
    Ends active more (.lift p >>= next) q' u := by
  refine h.step (fun calls k => ?_) hq
  show (match p u with
    | .ok (b, rest) => Parsing.active calls (next b >>= k) rest
    | .error f => ended (.error (.refused f))) = _
  rw [hp]

/-- A call ends if what it does ends with one more call active. -/
theorem call {goal : Goal α} {q : Nat → Parser α}
    (hgoal : ∀ r, q 0 r = .error ⟨.tooDeep, r⟩)
    (h : Ends (active + 1) more goal.script (fun limit => q (limit - active)) u) :
    Ends active (more + 1) (.call goal .done) (fun limit => q (limit - active)) u := by
  obtain ⟨result, deepest, hdeepest, hfollows⟩ := h
  have hactive := hfollows.active_le
  refine ⟨result, deepest, by omega, ?_, hfollows.within, ?_, hfollows.other, by omega⟩
  · intro β calls next hcalls
    -- the call is put on the stack, and its answer takes it off again
    have hbody := hfollows.path (Calls.frame goal next calls) .done (congrArg (· + 1) hcalls)
    rw [Script.bind_done] at hbody
    have henter : Path (.active calls (.call goal .done >>= next) u) deepest
        (reached (Calls.frame goal next calls) .done result) :=
      .cons rfl hbody (by show calls.depth ≤ _; omega)
    cases result with
    | error f => exact henter
    | ok result =>
      obtain ⟨a, v⟩ := result
      have hleave : Path (.active (Calls.frame goal next calls) (.done a) v)
          (max (calls.depth + 1) calls.depth) (.active calls (next a) v) := .head .refl
      have hpath := henter.trans hleave
      rwa [Nat.max_eq_left (by omega)] at hpath
  · intro limit hlimit hless
    -- a limit that is used up refuses the call itself, any other one a call inside it
    rcases Nat.eq_or_lt_of_le hlimit with rfl | hlimit
    · exact ⟨u, by rw [Nat.sub_self, hgoal]⟩
    · exact hfollows.beyond limit hlimit hless

theorem repeated {round : α → Script (Option α)} {step : Nat → α → Parser (Option α)}
    (hreading : ∀ limit, Parser.Reading (step limit))
    (hround : ∀ a v, v.length ≤ u.length →
      Ends active more (round a) (fun limit => step limit a) v) (a : α) :
    Ends active more (.repeated round a) (fun limit => Parser.loop (step limit) a) u := by
  induction hn : u.length using Nat.strongRecOn generalizing a u with
  | ind n ih =>
    subst hn
    have hunfold : Ends active more
        (round a >>= fun o => o.elim (.done a) (.repeated round))
        (fun limit => step limit a >>= fun o => o.elim (Pure.pure a) (Parser.loop (step limit)))
        u := by
      refine (hround a u (Nat.le_refl _)).bind fun limit o v hstep => ?_
      cases o with
      | none => exact .pure a
      | some b =>
        have hless := hreading limit a u b v hstep
        exact ih v.length hless (fun c r hr => hround c r (by omega)) b rfl
    refine hunfold.step (fun calls next => ?_) fun limit => ?_
    · rw [Script.bind_assoc]
      have hnext : ∀ o : Option α,
          (o.elim (.done a >>= next) fun c => .loop round c fun b => .done b >>= next) =
            o.elim (.done a) (.repeated round) >>= next := by
        intro o
        cases o <;> rfl
      exact congrArg (fun k => Parsing.active calls (round a >>= k) u) (funext hnext)
    · rw [Parser.loop_unfold (hreading limit), Parser.bind_apply]
      rcases step limit a u with f | ⟨_ | b, v⟩ <;> rfl

/-! ### Composed scripts -/

theorem andThen {next : α → Script β} {q' : Nat → α → Parser β} (h : Ends active more w q u)
    (hshrinking : ∀ limit, Parser.Shrinking (q limit))
    (hnext : ∀ a v, v.length < u.length →
      Ends active more (next a) (fun limit => q' limit a) v) :
    Ends active more (w >>= next) (fun limit => q limit >>= q' limit) u :=
  h.bind fun limit a v ha => hnext a v (hshrinking limit u a v ha)

theorem map (f : α → β) (h : Ends active more w q u) :
    Ends active more (w >>= fun a => Pure.pure (f a)) (fun limit => f <$> q limit) u := by
  refine (h.bind fun limit a v _ => Ends.pure (f a)).congr fun limit _ => ?_
  rw [bind_pure_comp]

theorem expect (k : Kind) :
    Ends active more (.lift (Parser.expect k)) (fun _ => Parser.expect k) u :=
  .lift (Parser.shallow_expect k)

theorem skip (k : Kind) :
    Ends active more (.lift (discard <| Parser.expect k)) (fun _ => discard <| Parser.expect k)
      u :=
  .lift ((Parser.shallow_expect k).map _)

theorem skipThen (k : Kind) (h : ∀ v, v.length < u.length → Ends active more w q v) :
    Ends active more (do Script.lift (discard <| Parser.expect k); w)
      (fun limit => do discard <| Parser.expect k; q limit) u :=
  (skip k).andThen (fun _ => Parser.shrinking_skip k) fun _ => h

theorem ifAccept (k : Kind) {w' : Script α} (h : Ends active more w q u.tail)
    (h' : Ends active more w' q' u) :
    Ends active more (do if ← Script.lift (Parser.accept k) then w else w')
      (fun limit => do if ← Parser.accept k then q limit else q' limit) u := by
  by_cases hk : Parser.kindOf u = k
  · refine .read (b := true) (v := u.tail) (by rw [Parser.accept_apply, if_pos hk]) h ?_
    intro limit
    rw [Parser.ifAccept_apply, if_pos hk]
  · refine .read (b := false) (v := u) (by rw [Parser.accept_apply, if_neg hk]) h' ?_
    intro limit
    rw [Parser.ifAccept_apply, if_neg hk]

theorem commaSeparated {item : Script α} {item' : Nat → Parser α}
    (hshrinking : ∀ limit, Parser.Shrinking (item' limit))
    (hitem : ∀ v, v.length ≤ u.length → Ends active more item item' v) :
    Ends active more (.commaSeparated item) (fun limit => Parser.commaSeparated (item' limit))
      u := by
  refine .ifAccept _ (.pure []) ((hitem u (Nat.le_refl _)).andThen hshrinking fun first v hv => ?_)
  refine Ends.bind (.repeated (fun limit => Parser.reading_nextItem (hshrinking limit))
    (fun xs r hr => ?_) [first]) fun _ reversed _ _ => .skipThen _ fun _ _ => .pure _
  have hless := (List.tail_sublist r).length_le
  exact .ifAccept _ ((hitem r.tail (by omega)).bind fun _ x _ _ => .pure _) (.pure none)

end Ends

end Script

end Treewalk
