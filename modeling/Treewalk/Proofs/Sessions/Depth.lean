/-
  Treewalk/Proofs/Sessions/Depth.lean
  ===================================
  **Calls are given back.**  However a call ends, as many calls are under way
  after it as before, so between two steps there is none; and in the course of
  a step there are never more than its limit lets begin.

  A step that fails has nothing else to leave behind but what it bound, and
  scopes that were opened for its calls.  If it bound nothing then it has no
  bearing on any later step.
-/
import Treewalk.Proofs.Sessions.Course
import Treewalk.Proofs.Sessions.Integrity
import Treewalk.Proofs.Sessions.Resemblance

namespace Treewalk

/-! ### What a failed step leaves behind -/

/-- Scopes that have grown look the same as they were, if the same is bound in them. -/
theorem Scopes.Recorded.similar {scopes scopes' : Scopes} {history : History}
    (h : scopes.Recorded history) (hgrows : scopes.Grows scopes')
    (hbindings : ∀ s < scopes.size, scopes'.bindings s = scopes.bindings s) :
    scopes.Similar (fun s t => s = t ∧ s < scopes.size) scopes' := by
  refine ⟨?_, ?_, ?_, ?_⟩
  · rintro s _ ⟨rfl, hs⟩
    exact ⟨hs, Nat.lt_of_lt_of_le hs hgrows.size_le⟩
  · rintro s _ s' _ ⟨rfl, -⟩ ⟨rfl, -⟩
    exact Iff.rfl
  · rintro s _ ⟨rfl, hs⟩
    rw [hgrows.chain s hs]
    exact List.forall₂_same.mpr fun t ht =>
      ⟨rfl, Nat.lt_of_le_of_lt (h.linked.le_of_mem_chain ht) hs⟩
  · rintro s _ ⟨rfl, hs⟩ x
    rw [hbindings s hs]
    cases hv : (scopes.bindings s).lookup x with
    | none => exact .none
    | some v => exact .some (.refl fun t ht => ⟨rfl, h.holds s x v hv t ht⟩)

namespace Session

variable {session : Session} {step : Step}

/-- A step that fails changes the machine at most. -/
theorem take_failed {e : Error} (h : (session.take step).1 = .error e) :
    (session.take step).2 = { session with machine := (session.take step).2.machine } := by
  cases step with
  | program | sequence => rfl
  | limits => cases h
  | command c =>
    cases c with
    | run scope text =>
      rw [take, step_run]
      cases parse text <;> rfl
    | statements scope text =>
      rw [take, Session.step]
      cases parse text <;> rfl
    | expression | apply | applyNamed | get | contains | display | bindings => rfl
    | limit | fresh | enclosed | set => cases h

/-- If it has bound nothing in the scopes that there were, the session resembles itself. -/
theorem resembles_failed {history : History} (hintact : session.Intact history)
    (hidle : session.machine.callDepth = 0) {e : Error} (h : (session.take step).1 = .error e)
    (hbindings : ∀ s < session.machine.scopes.size,
      (session.take step).2.machine.scopes.bindings s = session.machine.scopes.bindings s) :
    session.Resembles (fun s t => s = t ∧ s < session.machine.scopes.size)
      (session.take step).2 := by
  obtain ⟨-, hgrows, -⟩ := hintact.take step
  have hfailed := take_failed h
  refine ⟨?_, ⟨hintact.recorded.similar hgrows hbindings, ?_⟩, ?_, rfl, hintact.nonempty⟩
  · rw [hfailed]
  · rw [hidle, callDepth_take hidle]
  · rw [hfailed]
    exact List.forall₂_same.mpr fun s hs => ⟨rfl, hintact.places s (Array.mem_toList_iff.mp hs)⟩

end Session

/-- **Calls are given back.**  In every session, whatever its limits were set to on the way:

    - A call leaves as many calls under way as there were, whether it comes to a value or fails,
      for its callee, its arguments, a limit, or something inside of it.
    - At every moment, the machine counts the calls whose bodies have been entered and that have
      not ended; if there are any, they are no more than the limit.
    - Before and after each step no call is under way.
    - A step that fails leaves limits and places as they were.  The scopes that there were see
      the same ones around them, and if the same is bound in them then all later steps are
      answered as they would have been without the step that failed.
    - In any case, all later steps are answered as in every other session with the same limits
      in which the same is bound, as far as can be seen from its places. -/
theorem calls_given_back (calls : Int) (steps : List Step) (step : Step) :
    let session := (Session.start calls).after steps
    let seen := session.watch step
    let next := (session.take step).2
    (∀ (limit : Int) (allowance : Nat) (f : Value) (args : List Value) (m : Machine),
      (Eval.callOf limit allowance f args m).2.callDepth = m.callDepth) ∧
    (seen.reply, seen.session) = session.take step ∧
    (∀ later moment earlier, seen.moments = later ++ moment :: earlier →
      callsUnderWay (moment :: earlier) = moment.machine.callDepth ∧
      (0 < moment.machine.callDepth → moment.machine.callDepth ≤ session.limits.calls)) ∧
    session.machine.callDepth = 0 ∧ next.machine.callDepth = 0 ∧
    (∀ e, (session.take step).1 = .error e →
      next = { session with machine.scopes := next.machine.scopes } ∧
      session.machine.scopes.Grows next.machine.scopes ∧
      ((∀ s < session.machine.scopes.size,
          next.machine.scopes.bindings s = session.machine.scopes.bindings s) →
        ∀ more, List.Forall₂ Record.Same (session.account more) (next.account more))) ∧
    ∀ (R : Pairing) (calls' : Int) (steps' : List Step),
      next.Resembles R ((Session.start calls').after steps') →
      ∀ more, List.Forall₂ Record.Same (next.account more)
        (((Session.start calls').after steps').account more) := by
  intro session seen next
  have hidle : session.machine.callDepth = 0 := Session.callDepth_after rfl steps
  have hnext : next.machine.callDepth = 0 := Session.callDepth_take hidle step
  obtain ⟨hintact, -⟩ := (Session.Intact.start calls).after steps
  have hdistinct (calls : Int) (steps : List Step) :
      ((Session.start calls).after steps).machine.scopes.Distinct :=
    Session.distinct_after (Session.distinct_start calls) steps
  have hnextd : next.machine.scopes.Distinct := Session.distinct_take (hdistinct calls steps) step
  refine ⟨steady_apply, session.watch_of step, ?_, hidle, hnext, fun e he => ⟨?_, ?_, ?_⟩, ?_⟩
  · intro later moment earlier hsplit
    obtain ⟨root, horder⟩ := Session.inOrder_watch hidle step
    have hfollows := InOrder.follows (hsplit ▸ horder)
    exact ⟨hfollows.calls, hfollows.within⟩
  · have hmachine : next.machine = ⟨next.machine.scopes, session.machine.callDepth⟩ := by
      rw [hidle, ← hnext]
    exact (Session.take_failed he).trans
      (congrArg (fun m => { session with machine := m }) hmachine)
  · exact (hintact.take step).2.1
  · intro hbindings
    have hresembles := Session.resembles_failed hintact hidle he hbindings
    exact hresembles.account (hdistinct calls steps) hnextd
  · intro R calls' steps' hresembles
    exact hresembles.account hnextd (hdistinct calls' steps')

/-- The inner one of two calls is one too many.  The outer one has left a scope, and no call. -/
example :
    let loop : Program := [.define "f" (.fn ["x"] [.expr (.call (.ident "f") [.ident "x"])])]
    let session := (Session.start 1).after [.program 0 loop]
    let failed := session.take (.command (.applyNamed 0 "f" [.int 1]))
    (session.machine.scopes.size, failed.2.machine.scopes.size) = (1, 2) ∧
      failed.2.machine.callDepth = 0 := by
  decide +kernel

end Treewalk
