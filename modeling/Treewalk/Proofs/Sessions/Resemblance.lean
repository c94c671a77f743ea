/-
  Treewalk/Proofs/Sessions/Resemblance.lean
  =========================================
  **Sessions that resemble one another** answer the same to all steps.

  What a session answers is decided by its limits and by the scopes that can be
  seen from its places.  A machine may have more scopes than those, opened for
  calls that left nothing behind, and so the same scope may have different
  places in two machines; no answer shows where a scope is, or that there are
  scopes that nothing leads to.

  The names of a scope are shown in order, whatever the order in which they
  were bound, and none twice.
-/
import Mathlib.Data.List.Sort
import Treewalk.Proofs.Evaluation.Evolution
import Treewalk.Proofs.Evaluation.Purity
import Treewalk.Proofs.Sessions.Steps

namespace Treewalk

/-! ### Answers that read the same -/

/-- The values are the same, scopes of functions apart. -/
abbrev Value.Same (v w : Value) : Prop := v.same w = true

/-- The replies are the same, scopes of functions and the order of bindings apart. -/
inductive Reply.Same : Reply → Reply → Prop
  | nothing : Same .nothing .nothing
  | value {v w : Value} : v.Same w → Same (.value v) (.value w)
  | place (scope : Nat) : Same (.place scope) (.place scope)
  | truth (answer : Bool) : Same (.truth answer) (.truth answer)
  | text (text : String) : Same (.text text) (.text text)
  | bindings {b b' : Bindings} : b.names.Perm b'.names →
      (∀ x, Option.Rel Value.Same (b.lookup x) (b'.lookup x)) → Same (.bindings b) (.bindings b')
  | error {e e' : Error} : e.report = e'.report → Same (.error e) (.error e')

structure Record.Same (r r' : Record) : Prop where
  reply : r.reply.Same r'.reply
  callDepth : r.callDepth = r'.callDepth
  names : r.names = r'.names

/-- The steps one after another: what is replied, and what can be seen of the session then. -/
def Session.account (session : Session) : List Step → List Record
  | [] => []
  | step :: rest =>
    let (reply, session) := session.take step
    ⟨reply, session.machine.callDepth, session.names⟩ :: session.account rest

/-! ### Names of scopes that go together -/

theorem Bindings.mem_names_iff (b : Bindings) (x : String) :
    x ∈ b.names ↔ ∃ v, b.lookup x = some v := by
  induction b with
  | nil => simp [names]
  | cons p rest ih =>
    obtain ⟨y, v⟩ := p
    rw [names] at ih ⊢
    rw [List.map_cons, List.mem_cons, ih, lookup_cons]
    by_cases hx : x = y <;> simp [hx]

theorem Bindings.Corresponds.perm_names {R : Pairing} {b b' : Bindings} (h : b.Corresponds R b')
    (hb : b.names.Nodup) (hb' : b'.names.Nodup) : b.names.Perm b'.names := by
  refine (List.perm_ext_iff_of_nodup hb hb').mpr fun x => ?_
  rw [mem_names_iff, mem_names_iff]
  have hx := h x
  generalize b.lookup x = found, b'.lookup x = found' at hx
  cases hx <;> simp

section Names

variable {R : Pairing} {scopes scopes' : Scopes} {s t : ScopeId}

theorem Scopes.names_eq_of_perm (h : (scopes.bindings s).names.Perm (scopes'.bindings t).names) :
    scopes.names s = scopes'.names t := by
  have hsorted (l : List String) :
      (l.mergeSort fun x y => decide (x ≤ y)).Pairwise fun x y => decide (x ≤ y) = true := by
    refine List.pairwise_mergeSort (fun x y z hxy hyz => ?_) (fun x y => ?_) l
    · exact decide_eq_true (String.le_trans (of_decide_eq_true hxy) (of_decide_eq_true hyz))
    · simpa using String.le_total x y
  refine List.Perm.eq_of_pairwise (fun x y _ _ hxy hyx => ?_) (hsorted _) (hsorted _) ?_
  · exact String.le_antisymm (of_decide_eq_true hxy) (of_decide_eq_true hyx)
  · exact (List.mergeSort_perm ..).trans (h.trans (List.mergeSort_perm ..).symm)

variable (h : scopes.Similar R scopes') (hd : scopes.Distinct) (hd' : scopes'.Distinct)

include h hd hd'

theorem Scopes.Similar.names (hst : R s t) : scopes.names s = scopes'.names t :=
  names_eq_of_perm ((h.bindings hst).perm_names (hd s) (hd' t))

theorem Scopes.Similar.display (hst : R s t) : scopes.display s = scopes'.display t := by
  have hchain := h.chain hst
  unfold Scopes.display
  generalize scopes.chain s = us, scopes'.chain t = vs at hchain
  induction hchain with
  | nil => rfl
  | cons huv _ ih => rw [List.foldr_cons, List.foldr_cons, ih, h.names hd hd' huv]

end Names

/-! ### Replies from what goes together -/

namespace Reply.Same

variable {R : Pairing}

theorem ofResult {result result' : Except Fault Value}
    (h : Alike (Value.Corresponds R) result result') :
    Reply.Same (.ofResult (result.mapError .fault)) (.ofResult (result'.mapError .fault)) := by
  cases h with
  | ok hvw => exact .value hvw.same
  | @error f f' hmessage =>
    have hreport : (Error.fault f).report = (Error.fault f').report := hmessage
    exact .error hreport

variable {found found' : Option Value}

theorem ofOption (h : Option.Rel (Value.Corresponds R) found found') :
    Reply.Same (.ofOption found) (.ofOption found') := by
  cases h with
  | none => exact .nothing
  | some hvw => exact .value hvw.same

theorem isSome (h : Option.Rel (Value.Corresponds R) found found') :
    Reply.Same (.truth found.isSome) (.truth found'.isSome) := by
  cases h <;> exact .truth _

theorem ofBindings {b b' : Bindings} (h : b.Corresponds R b') (hb : b.names.Nodup)
    (hb' : b'.names.Nodup) : Reply.Same (.bindings b) (.bindings b') := by
  refine .bindings (h.perm_names hb hb') fun x => ?_
  have hx := h x
  generalize b.lookup x = found, b'.lookup x = found' at hx ⊢
  cases hx with
  | none => exact .none
  | some hvw => exact .some hvw.same

end Reply.Same

/-! ### Sessions -/

namespace Session

variable {session session' : Session}

/-- No step makes a scope bind a name twice. -/
theorem distinct_take (h : session.machine.scopes.Distinct) (step : Step) :
    (session.take step).2.machine.scopes.Distinct := by
  have hexpr : ∀ s e, Evolving (session.limits.expression s e) := evolving_expression _ _
  have hperform {c : Eval Value} (hc : Evolving c) :
      (session.perform c).2.machine.scopes.Distinct := h.evolve (hc session.machine)
  cases step with
  | program scope p => exact hperform (evolving_program _ _ _ p)
  | sequence scope body => exact hperform (evolving_block hexpr _ body)
  | limits limits => exact h
  | command c =>
    cases c with
    | run scope text =>
      rw [take, step_run]
      cases parse text with
      | error e => exact h
      | ok p => exact hperform (evolving_program _ _ _ p)
    | statements scope text =>
      rw [take, step]
      cases parse text with
      | error e => exact h
      | ok p => exact hperform (evolving_block hexpr _ p)
    | expression scope tree => exact hperform (hexpr _ tree)
    | apply callee args => exact hperform (evolving_apply hexpr _ _ _)
    | applyNamed scope name args =>
      exact hperform ((Evolving.read _ name).bind fun f => evolving_apply hexpr _ f _)
    | set scope name v => exact h.bind _ _ _
    | fresh | enclosed => exact h.push List.nodup_nil
    | limit | get | contains | display | bindings => exact h

theorem distinct_after (h : session.machine.scopes.Distinct) (steps : List Step) :
    (session.after steps).machine.scopes.Distinct := by
  induction steps generalizing session with
  | nil => exact h
  | cons step steps ih => exact ih (distinct_take h step)

theorem distinct_start (calls : Int) : (Session.start calls).machine.scopes.Distinct := by
  have hempty : Scopes.Distinct #[] := fun s => List.nodup_nil
  exact hempty.push List.nodup_nil

/-- The sessions have the same limits, and at the same places scopes that go together. -/
structure Resembles (R : Pairing) (session session' : Session) : Prop where
  limits : session.limits = session'.limits
  machine : session.machine.Similar R session'.machine
  places : List.Forall₂ R session.places.toList session'.places.toList
  /-- The first scope stands for all places that there are not. -/
  first : R 0 0

/-- By a pairing with perhaps more pairs, the sessions still resemble one another, and the replies
    are the same. -/
def Agree (R : Pairing) (outcome outcome' : Reply × Session) : Prop :=
  ∃ R', R.Grows R' ∧ outcome.2.Resembles R' outcome'.2 ∧ outcome.1.Same outcome'.1

namespace Resembles

variable {R R' : Pairing} (h : session.Resembles R session')

include h

theorem scopeAt (place : Nat) : R (session.scopeAt place) (session'.scopeAt place) := by
  have hplaces := h.places
  have hlength := hplaces.length_eq
  rw [Session.scopeAt, Session.scopeAt]
  rw [← Array.getElem?_toList, ← Array.getElem?_toList]
  by_cases hplace : place < session.places.toList.length
  · rw [List.getElem?_eq_getElem hplace, List.getElem?_eq_getElem (hlength ▸ hplace)]
    exact hplaces.get hplace (hlength ▸ hplace)
  · rw [List.getElem?_eq_none (Nat.not_lt.mp hplace),
      List.getElem?_eq_none (hlength ▸ Nat.not_lt.mp hplace)]
    exact h.first

theorem settle (v : Value) : (session.settle v).Corresponds R (session'.settle v) := by
  unfold Session.settle
  induction v with
  | int n => exact .int n
  | bool b => exact .bool b
  | null => exact .null
  | returned v ih => exact .returned ih
  | fn params body s => exact .fn params body (h.scopeAt s)

theorem settle_all (args : List Value) : List.Forall₂ (Value.Corresponds R)
    (args.map session.settle) (args.map session'.settle) := by
  induction args with
  | nil => exact .nil
  | cons v args ih => exact .cons (h.settle v) ih

/-- Nothing changes but what is replied. -/
theorem reply {reply reply' : Reply} (hreply : reply.Same reply') :
    Agree R (reply, session) (reply', session') :=
  ⟨R, .refl R, h, hreply⟩

theorem perform {c d : Eval Value} (hc : Parallel R Value.Corresponds c d) :
    Agree R (session.perform c) (session'.perform d) := by
  obtain ⟨R', hgrows, hleft, halike⟩ := hc _ _ h.machine
  exact ⟨R', hgrows, ⟨h.limits, hleft, h.places.imp hgrows, hgrows _ _ h.first⟩,
    .ofResult halike⟩

/-- Both sessions open a scope. -/
theorem opening {scope scope' : Scope} (hb : scope.bindings.Corresponds R scope'.bindings)
    (haround : List.Forall₂ R scope.around scope'.around) :
    Agree R (session.opening (·.push scope)) (session'.opening (·.push scope')) := by
  have hgrows := R.grows_add session.machine.scopes.size session'.machine.scopes.size
  have hsize : session.places.size = session'.places.size := h.places.length_eq
  refine ⟨_, hgrows, ⟨h.limits, ⟨h.machine.scopes.push hb haround, h.machine.callDepth⟩, ?_,
    hgrows _ _ h.first⟩, ?_⟩
  · simp only [Session.opening, Array.toList_push]
    exact List.rel_append (h.places.imp hgrows) (.cons (.inr ⟨rfl, rfl⟩) .nil)
  · simp only [Session.opening, hsize]
    exact .place _

/-- One step. -/
theorem take (hd : session.machine.scopes.Distinct) (hd' : session'.machine.scopes.Distinct)
    (step : Step) : Agree R (session.take step) (session'.take step) := by
  have hsimilar := h.machine.scopes
  have hexpr : ParallelEval session'.limits.expression := parallel_expression _ _
  have happly {R : Pairing} {f f' : Value} {args args' : List Value}
      (hf : f.Corresponds R f') (hargs : List.Forall₂ (Value.Corresponds R) args args') :
      Parallel R Value.Corresponds
        (Eval.apply session.limits.expression session.limits.calls f args)
        (Eval.apply session'.limits.expression session'.limits.calls f' args') := by
    rw [h.limits]
    exact hexpr.apply _ hf hargs
  have hprogram (scope : Nat) (p : Program) : Parallel R Value.Corresponds
      (Eval.program session.limits.calls session.limits.nesting (session.scopeAt scope) p)
      (Eval.program session'.limits.calls session'.limits.nesting (session'.scopeAt scope) p) := by
    rw [h.limits]
    exact parallel_program _ _ (h.scopeAt scope) p
  have hblock (scope : Nat) (p : Program) : Parallel R Value.Corresponds
      (Eval.block session.limits.expression (session.scopeAt scope) p)
      (Eval.block session'.limits.expression (session'.scopeAt scope) p) := by
    rw [h.limits]
    exact hexpr.block (h.scopeAt scope) p
  cases step with
  | program scope p => exact h.perform (hprogram scope p)
  | sequence scope body => exact h.perform (hblock scope body)
  | limits limits => exact ⟨R, .refl R, ⟨rfl, h.machine, h.places, h.first⟩, .nothing⟩
  | command c =>
    cases c with
    | run scope text =>
      rw [Session.take, Session.take, step_run, step_run]
      cases parse text with
      | error e => exact h.reply (.error rfl)
      | ok p => exact h.perform (hprogram scope p)
    | statements scope text =>
      rw [Session.take, Session.take, Session.step, Session.step]
      cases parse text with
      | error e => exact h.reply (.error rfl)
      | ok p => exact h.perform (hblock scope p)
    | expression scope tree =>
      rw [Session.take, Session.take, Session.step, Session.step, h.limits]
      exact h.perform (hexpr.expression tree (h.scopeAt scope))
    | apply callee args => exact h.perform (happly (h.settle callee) (h.settle_all args))
    | applyNamed scope name args =>
      refine h.perform ((Parallel.read (h.scopeAt scope) name).bind fun hgrows hf => ?_)
      exact happly hf ((h.settle_all args).imp fun _ _ hvw => hvw.mono hgrows)
    | limit calls => exact ⟨R, .refl R, ⟨rfl, h.machine, h.places, h.first⟩, .nothing⟩
    | fresh => exact h.opening (fun _ => .none) .nil
    | enclosed scope =>
      let scopes := session.machine.scopes
      let scopes' := session'.machine.scopes
      have hopened : Agree R (session.opening (·.push ⟨[], scopes.chain (session.scopeAt scope)⟩))
          (session'.opening (·.push ⟨[], scopes'.chain (session'.scopeAt scope)⟩)) :=
        h.opening (fun _ => .none) (hsimilar.chain (h.scopeAt scope))
      exact hopened
    | set scope name v =>
      have hv := h.settle v
      have hbound := hsimilar.bind (h.scopeAt scope) name hv
      exact ⟨R, .refl R, ⟨h.limits, ⟨hbound, h.machine.callDepth⟩, h.places, h.first⟩,
        .value hv.same⟩
    | get scope name => exact h.reply (.ofOption (hsimilar.find? (h.scopeAt scope) name))
    | contains scope name => exact h.reply (.isSome (hsimilar.find? (h.scopeAt scope) name))
    | display scope =>
      refine h.reply ?_
      rw [hsimilar.display hd hd' (h.scopeAt scope)]
      exact .text _
    | bindings scope =>
      exact h.reply (.ofBindings (hsimilar.bindings (h.scopeAt scope)) (hd _) (hd' _))

theorem names (hd : session.machine.scopes.Distinct) (hd' : session'.machine.scopes.Distinct) :
    session.names = session'.names := by
  unfold Session.names
  have hplaces := h.places
  generalize session.places.toList = places, session'.places.toList = places' at hplaces
  induction hplaces with
  | nil => rfl
  | cons hst _ ih => rw [List.map_cons, List.map_cons, ih, h.machine.scopes.names hd hd' hst]

/-- Any number of steps. -/
theorem account (hd : session.machine.scopes.Distinct) (hd' : session'.machine.scopes.Distinct)
    (steps : List Step) :
    List.Forall₂ Record.Same (session.account steps) (session'.account steps) := by
  induction steps generalizing R session session' with
  | nil => exact .nil
  | cons step steps ih =>
    obtain ⟨R', -, hnext, hreply⟩ := h.take hd hd' step
    have hnextd := distinct_take hd step
    have hnextd' := distinct_take hd' step
    exact .cons ⟨hreply, hnext.machine.callDepth, hnext.names hnextd hnextd'⟩
      (ih hnext hnextd hnextd')

end Resembles

end Session

end Treewalk
