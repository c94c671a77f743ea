/-
  Treewalk/Proofs/Sessions/Integrity.lean
  =======================================
  **Scopes over whole sessions.**  The scope around another one is fixed when
  this one is opened and is older, function values hold open scopes only, and
  looking a name up is the same as searching what was written in the course of
  the session.

  Steps that fail half-way have written something too, and so have calls that
  leave nothing behind but a scope that a function holds.  All of it is in the
  trace that watching the steps gives.
-/
import Treewalk.Proofs.Evaluation.History
import Treewalk.Proofs.Sessions.Steps

namespace Treewalk

theorem Value.Below.relocate {n : Nat} {place : ScopeId → ScopeId} (h : ∀ s, place s < n)
    (v : Value) : (v.relocate place).Below n := by
  induction v with
  | int | bool | null => nofun
  | returned v ih => exact ih
  | fn params body s =>
    intro t ht
    cases ht
    exact h s

namespace Session

/-! ### Histories of sessions -/

/-- What a step writes. -/
def writes (session : Session) : Step → History
  | .command (.set scope name value) =>
    [((session.scopeAt scope, name), session.settle value)]
  | step => Treewalk.writes (session.watch step).moments

/-- What the steps write that a session takes. -/
def history (session : Session) : List Step → History
  | [] => []
  | step :: steps => (session.take step).2.history steps ++ session.writes step

/-! ### Sessions and their histories -/

/-- The scopes are what the history made them, and the session's own ones are open. -/
structure Intact (session : Session) (history : History) : Prop where
  recorded : session.machine.scopes.Recorded history
  nonempty : 0 < session.machine.scopes.size
  places : ∀ s ∈ session.places, s < session.machine.scopes.size

/-- A step that was observed: what it has written adds to the history, and all values that it met
    hold scopes that were open then. -/
structure Intact.Step (session : Session) (history written : History) (o : Observation) :
    Prop where
  intact : o.session.Intact (written ++ history)
  grows : session.machine.scopes.Grows o.session.machine.scopes
  reply : ∀ v, o.reply = .value v → v.Below o.session.machine.scopes.size
  moments : ∀ moment ∈ o.moments, ∀ v ∈ moment.event.values,
    v.Below moment.machine.scopes.size

namespace Intact

variable {session : Session} {history : History}

theorem start (calls : Int) : (Session.start calls).Intact [] := by
  have hbindings : ∀ s, Machine.new.scopes.bindings s = [] := by
    intro s
    cases s with
    | zero => rfl
    | succ s => exact Scopes.bindings_eq_nil (Nat.le_add_left 1 s)
  refine ⟨⟨fun s => .inl ?_, fun s x v hx => ?_, fun s x => ?_⟩, Nat.one_pos, ?_⟩
  · cases s with
    | zero => rfl
    | succ s => exact Scopes.chain_eq_singleton (Nat.le_add_left 1 s)
  · rw [Session.start, hbindings] at hx
    cases hx
  · rw [Session.start, hbindings]
    rfl
  · intro s hs
    rw [List.mem_singleton.mp (Array.mem_toList_iff.mpr hs)]
    exact Nat.one_pos

variable (h : session.Intact history)

include h

theorem scopeAt_lt (place : Nat) : session.scopeAt place < session.machine.scopes.size := by
  rw [scopeAt]
  cases hplace : session.places[place]? with
  | none => exact h.nonempty
  | some s => exact h.places s (Array.mem_of_getElem? hplace)

theorem settle_below (v : Value) : (session.settle v).Below session.machine.scopes.size :=
  .relocate h.scopeAt_lt v

theorem settle_all_below (args : List Value) :
    ∀ v ∈ args.map session.settle, v.Below session.machine.scopes.size := by
  intro v hv
  obtain ⟨w, -, rfl⟩ := List.mem_map.mp hv
  exact h.settle_below w

theorem grow {session' : Session} {history' : History} (hplaces : session'.places = session.places)
    (hgrows : session.machine.scopes.Grows session'.machine.scopes)
    (hrecorded : session'.machine.scopes.Recorded history') : session'.Intact history' := by
  refine ⟨hrecorded, Nat.lt_of_lt_of_le h.nonempty hgrows.size_le, fun s hs => ?_⟩
  exact Nat.lt_of_lt_of_le (h.places s (hplaces ▸ hs)) hgrows.size_le

/-- The session opens a scope of its own, which binds nothing. -/
theorem opening {grow : Scopes → Scopes}
    (hsize : (grow session.machine.scopes).size = session.machine.scopes.size + 1)
    (hgrows : session.machine.scopes.Grows (grow session.machine.scopes))
    (hrecorded : (grow session.machine.scopes).Recorded history) :
    Intact.Step session history [] (Session.pass (session.opening grow)) := by
  have hnew : session.machine.scopes.size < (grow session.machine.scopes).size :=
    Nat.lt_of_lt_of_eq (Nat.lt_succ_self _) hsize.symm
  refine ⟨⟨hrecorded, Nat.lt_trans h.nonempty hnew, fun s hs => ?_⟩, hgrows, nofun, nofun⟩
  rcases Array.mem_push.mp hs with hs | rfl
  · exact Nat.lt_trans (h.places s hs) hnew
  · exact hnew

/-- A step that opens or writes nothing. -/
theorem pass {reply : Reply}
    (hreply : ∀ v, reply = .value v → v.Below session.machine.scopes.size) :
    Intact.Step session history [] (Session.pass (reply, session)) :=
  ⟨h, .refl _, hreply, List.forall_mem_nil _⟩

/-- A step that answers no value, and at most sets limits. -/
theorem quiet {reply : Reply} {limits : Limits} (hreply : ∀ v, reply ≠ .value v) :
    Intact.Step session history [] (Session.pass (reply, { session with limits := limits })) := by
  refine ⟨⟨h.recorded, h.nonempty, h.places⟩, .refl _, ?_, List.forall_mem_nil _⟩
  intro v hv
  exact absurd hv (hreply v)

theorem observe {c : Traced Value}
    (hc : Records history session.machine.scopes.size Value.Below c) :
    Intact.Step session history (Treewalk.writes (session.observe c).moments)
      (session.observe c) := by
  obtain ⟨hfaithful, hgrows, hresult⟩ := hc _ (.start h.recorded) (Nat.le_refl _)
  refine ⟨h.grow rfl hgrows hfaithful.recorded, hgrows, fun v hv => ?_, hfaithful.moments⟩
  rw [Session.observe] at hv ⊢
  rcases hrun : c (.start session.machine) with ⟨f | w, t⟩ <;> rw [hrun] at hv hresult
  · cases hv
  · cases hv
    exact hresult _ rfl

theorem observeText {text : String} {c : Program → Traced Value}
    (hc : ∀ p, Records history session.machine.scopes.size Value.Below (c p)) :
    Intact.Step session history (Treewalk.writes (session.observeText text c).moments)
      (session.observeText text c) := by
  unfold Session.observeText
  cases parse text with
  | error e => exact h.quiet (by simp)
  | ok p => exact h.observe (hc p)

/-- One step. -/
theorem watch (step : Treewalk.Step) :
    Intact.Step session history (session.writes step) (session.watch step) := by
  have heval : ∀ n s e, s < n → Records history n Value.Below (session.traced s e) :=
    fun n s e hs => records_expression history _ _ hs e
  have hprogram : ∀ scope p, Records history session.machine.scopes.size Value.Below
      (Traced.program session.limits.calls session.limits.nesting (session.scopeAt scope) p) :=
    fun scope p => records_program history _ _ (h.scopeAt_lt scope) p
  have hblock : ∀ scope p, Records history session.machine.scopes.size Value.Below
      (Traced.block session.traced (session.scopeAt scope) p) :=
    fun scope p => records_block heval (h.scopeAt_lt scope) p
  cases step with
  | program scope p => exact h.observe (hprogram scope p)
  | sequence scope body => exact h.observe (hblock scope body)
  | limits limits => exact h.quiet (by simp)
  | command c =>
    cases c with
    | run scope text => exact h.observeText (hprogram scope)
    | statements scope text => exact h.observeText (hblock scope)
    | expression scope tree => exact h.observe (heval _ _ tree (h.scopeAt_lt scope))
    | apply callee args =>
      exact h.observe (records_apply heval _ (h.settle_below callee) (h.settle_all_below args))
    | applyNamed scope name args =>
      refine h.observe ((Records.read _ name).bind fun k f hk hf => ?_)
      exact records_apply heval _ hf fun v hv => (h.settle_all_below args v hv).mono hk
    | limit | contains | display | bindings => exact h.quiet (by simp)
    | get scope name =>
      refine h.pass fun v hv => ?_
      simp only [Session.find?] at hv
      cases hfind : session.machine.scopes.find? (session.scopeAt scope) name with
      | none =>
        rw [hfind] at hv
        cases hv
      | some w =>
        rw [hfind] at hv
        cases hv
        exact h.recorded.find? hfind
    | set scope name v =>
      have hv := h.settle_below v
      have hgrows := Scopes.Grows.bind session.machine.scopes (session.scopeAt scope) name
        (session.settle v)
      refine ⟨h.grow rfl hgrows (h.recorded.bind (h.scopeAt_lt scope) name hv), hgrows, ?_,
        List.forall_mem_nil _⟩
      intro w hw
      cases hw
      exact hv.mono hgrows.size_le
    | fresh => exact h.opening (Array.size_push ..) (.push ..) h.recorded.push
    | enclosed scope =>
      exact h.opening (Scopes.size_enclose ..) (.enclose ..)
        (h.recorded.enclose (h.scopeAt_lt scope) [] (List.forall_mem_nil _))

theorem take (step : Treewalk.Step) :
    (session.take step).2.Intact (session.writes step ++ history) ∧
      session.machine.scopes.Grows (session.take step).2.machine.scopes ∧
      ∀ v, (session.take step).1 = .value v →
        v.Below (session.take step).2.machine.scopes.size := by
  have hstep := h.watch step
  rw [← session.watch_of step]
  exact ⟨hstep.intact, hstep.grows, hstep.reply⟩

/-- Any number of steps. -/
theorem after (steps : List Treewalk.Step) :
    (session.after steps).Intact (session.history steps ++ history) ∧
      session.machine.scopes.Grows (session.after steps).machine.scopes := by
  induction steps generalizing session history with
  | nil => exact ⟨h, .refl _⟩
  | cons step steps ih =>
    obtain ⟨hnext, hgrows, -⟩ := h.take step
    obtain ⟨hafter, hgrows'⟩ := ih hnext
    rw [Session.history, List.append_assoc]
    exact ⟨hafter, hgrows.trans hgrows'⟩

end Intact

/-! ### Integrity -/

/-- **Scopes over whole sessions.**  After any steps, of which any may have failed:

    - The scope around another one was opened earlier and stays the same.  So what a scope sees
      is a finite sequence of ever older scopes, and looking a name up comes to an end on it.
    - Every value that is bound or replied, or met on the way, holds open scopes only.
    - A name has the value that was written last in the nearest scope in which it was ever
      written, by a command, a definition or a call; and it has none, which is when it is said
      not to be contained, if it was never written in any of the scopes that are seen. -/
theorem scopes_intact (calls : Int) (steps : List Step) :
    let session := (Session.start calls).after steps
    let scopes := session.machine.scopes
    let history := (Session.start calls).history steps
    (∀ s t, scopes.outer? s = some t → t < s) ∧
    (∀ s < scopes.size, ∀ more,
      (session.after more).machine.scopes.outer? s = scopes.outer? s) ∧
    (∀ s, (scopes.chain s).Pairwise (fun t u => u < t) ∧
      ∀ x, scopes.find? s x =
        ((scopes.bindings s).lookup x).or ((scopes.outer? s).bind fun t => scopes.find? t x)) ∧
    (∀ s x v, (scopes.bindings s).lookup x = some v → v.Below scopes.size) ∧
    (∀ step, (∀ v, (session.take step).1 = .value v →
        v.Below (session.take step).2.machine.scopes.size) ∧
      ∀ moment ∈ (session.watch step).moments, ∀ v ∈ moment.event.values,
        v.Below moment.machine.scopes.size) ∧
    (∀ s x v, scopes.find? s x = some v ↔ ∃ near t far, scopes.chain s = near ++ t :: far ∧
      (∀ u ∈ near, history.Untouched u x) ∧ history.Latest t x v) ∧
    (∀ s x, scopes.find? s x = none ↔ ∀ t ∈ scopes.chain s, history.Untouched t x) ∧
    ∀ place x, (session.step (.get place x)).1 =
        .ofOption (scopes.find? (session.scopeAt place) x) ∧
      ((session.step (.contains place x)).1 = .truth false ↔
        scopes.find? (session.scopeAt place) x = none) := by
  intro session scopes history
  obtain ⟨hintact, -⟩ := (Intact.start calls).after steps
  rw [List.append_nil] at hintact
  have hrecorded : scopes.Recorded history := hintact.recorded
  have hlinked := hrecorded.linked
  refine ⟨fun s t => hlinked.outer_lt, ?_, fun s => ⟨hlinked.pairwise_chain s, ?_⟩,
    hrecorded.holds, fun step => ⟨(hintact.take step).2.2, (hintact.watch step).moments⟩,
    fun s x v => hrecorded.find?_eq_some_iff, fun s x => hrecorded.find?_eq_none_iff, ?_⟩
  · intro s hs more
    rw [Scopes.outer?_eq, Scopes.outer?_eq, (hintact.after more).2.chain s hs]
  · exact hlinked.find?_eq s
  · intro place x
    refine ⟨rfl, ?_⟩
    simp only [Session.step, Session.find?]
    cases scopes.find? (session.scopeAt place) x <;> simp

end Session

end Treewalk
