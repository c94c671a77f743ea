/-
  Treewalk/Proofs/Evaluation/Course.lean
  ======================================
  **The course of an evaluation.**  A part begins inside of the part that it
  belongs to and ends before this one does, and what happens in between is what
  the part is there for.  At every moment the number of calls under way is that
  of the calls that have entered the body of a function and have not ended.

  The trace alone tells all of this: the parts that have begun and not ended
  make up a stack, and every event is allowed by the part on its top or not.
  After a fault nothing happens any more, since there is nothing that catches
  one, and so parts and calls may be left open at the end of a trace.
-/
import Treewalk.Proofs.Evaluation.Trace

namespace Treewalk

/-! ### What a trace tells -/

/-- The parts that have begun and have not ended, the innermost first. -/
def underWay : List Moment → List Part
  | [] => []
  | ⟨.begins part, _⟩ :: earlier => part :: underWay earlier
  | ⟨.ends _ _, _⟩ :: earlier => (underWay earlier).tail
  | _ :: earlier => underWay earlier

/-- What an event adds to the number of calls under way. -/
def Event.calls : Event → Int
  | enters _ _ => 1
  | ends (.application _ _) _ => -1
  | _ => 0

/-- How many calls have entered the body of a function and have not ended. -/
def callsUnderWay : List Moment → Int
  | [] => 0
  | moment :: earlier => moment.event.calls + callsUnderWay earlier

/-! ### Order -/

/-- What can happen directly inside of a part, its own end included. -/
inductive Part.Allows : Part → Event → Prop
  | operand {op : String} {e : Expr} : Allows (.expression (.unary op e)) (.begins (.expression e))
  | unary {op : String} {e : Expr} (v : Value) : Allows (.expression (.unary op e)) (.unary op v)
  | left {l r : Expr} {op : String} :
      Allows (.expression (.binary l op r)) (.begins (.expression l))
  | right {l r : Expr} {op : String} :
      Allows (.expression (.binary l op r)) (.begins (.expression r))
  | binary {l r : Expr} {op : String} (v w : Value) :
      Allows (.expression (.binary l op r)) (.binary v op w)
  | test {test : Expr} {body : Block} {other : Option Block} :
      Allows (.expression (.cond test body other)) (.begins (.expression test))
  | tests {test : Expr} {body : Block} {other : Option Block} (v : Value) :
      Allows (.expression (.cond test body other)) (.tests v)
  | body {test : Expr} {body : Block} {other : Option Block} :
      Allows (.expression (.cond test body other)) (.begins (.sequence body))
  | other {test : Expr} {body other : Block} :
      Allows (.expression (.cond test body (some other))) (.begins (.sequence other))
  | callee {callee : Expr} {args : List Expr} :
      Allows (.expression (.call callee args)) (.begins (.expression callee))
  | argument {callee e : Expr} {args : List Expr} : e ∈ args →
      Allows (.expression (.call callee args)) (.begins (.expression e))
  | applied {callee : Expr} {args : List Expr} (f : Value) (vs : List Value) :
      Allows (.expression (.call callee args)) (.begins (.application f vs))
  | enters {params : List String} {body : Block} {captured : ScopeId} {vs : List Value}
      (s : ScopeId) : Allows (.application (.fn params body captured) vs) (.enters s body)
  | entered {params : List String} {body : Block} {captured : ScopeId} {vs : List Value} :
      Allows (.application (.fn params body captured) vs) (.begins (.sequence body))
  | statement {body : Block} {stmt : Stmt} : stmt ∈ body →
      Allows (.sequence body) (.begins (.statement stmt))
  | defined {x : String} {e : Expr} : Allows (.statement (.define x e)) (.begins (.expression e))
  | binds {x : String} {e : Expr} (s : ScopeId) (v : Value) :
      Allows (.statement (.define x e)) (.binds s x v)
  | returned {e : Expr} : Allows (.statement (.ret e)) (.begins (.expression e))
  | value {e : Expr} : Allows (.statement (.expr e)) (.begins (.expression e))
  | block {body : Block} : Allows (.statement (.block body)) (.begins (.sequence body))
  | ends (part : Part) (v : Value) : Allows part (.ends part v)

/-- The event can happen when these parts of a whole are under way. -/
inductive Event.Inside (root : Part) : Event → List Part → Prop
  | outermost : Inside root (.begins root) []
  | within {event : Event} {part : Part} {parts : List Part} : part.Allows event →
      Inside root event (part :: parts)

/-- The moment is in order behind those before it, with a limit on calls. -/
structure Moment.Follows (root : Part) (limit : Int) (earlier : List Moment) (moment : Moment) :
    Prop where
  inside : moment.event.Inside root (underWay earlier)
  calls : callsUnderWay (moment :: earlier) = moment.machine.callDepth
  within : 0 < moment.machine.callDepth → moment.machine.callDepth ≤ limit

/-- Every moment is in order behind those before it. -/
def InOrder (root : Part) (limit : Int) : List Moment → Prop
  | [] => True
  | moment :: earlier => moment.Follows root limit earlier ∧ InOrder root limit earlier

theorem InOrder.follows {root : Part} {limit : Int} {later earlier : List Moment} {moment : Moment}
    (h : InOrder root limit (later ++ moment :: earlier)) : moment.Follows root limit earlier := by
  induction later with
  | nil => exact h.1
  | cons _ later ih => exact ih h.2

/-- A part that is under way has begun. -/
theorem exists_begins {moments : List Moment} {part : Part} (h : part ∈ underWay moments) :
    ∃ moment ∈ moments, moment.event = .begins part := by
  induction moments with
  | nil => cases h
  | cons moment earlier ih =>
    have hlater (h : part ∈ underWay earlier) :
        ∃ m ∈ moment :: earlier, m.event = .begins part := by
      obtain ⟨m, hm, hevent⟩ := ih h
      exact ⟨m, List.mem_cons_of_mem _ hm, hevent⟩
    obtain ⟨event, machine⟩ := moment
    cases event with
    | begins part' =>
      rcases List.mem_cons.mp h with rfl | h
      · exact ⟨_, List.mem_cons_self, rfl⟩
      · exact hlater h
    | ends => exact hlater (List.mem_of_mem_tail h)
    | unary | binary | tests | enters | binds => exact hlater h

/-! ### Computations in order -/

/-- Where an evaluation has got to. -/
structure Stage where
  parts : List Part
  /-- The calls that are under way as the events tell. -/
  entered : Int
  /-- The calls that are under way as the machine tells. -/
  calls : Nat

/-- A stage at which events and machine tell the same. -/
abbrev Stage.settled (parts : List Part) (calls : Nat) : Stage := ⟨parts, calls, calls⟩

/-- All that has happened is in order, and has led to the stage. -/
structure Trace.At (root : Part) (limit : Int) (stage : Stage) (t : Trace) : Prop where
  order : InOrder root limit t.moments
  parts : underWay t.moments = stage.parts
  entered : callsUnderWay t.moments = stage.entered
  calls : t.machine.callDepth = stage.calls
  within : 0 < stage.calls → stage.calls ≤ limit

/-- What happens in the computation is in order, and leads from the one stage to the other unless
    the computation fails. -/
def Leads {α : Type} (root : Part) (limit : Int) (σ σ' : Stage) (c : Traced α) : Prop :=
  ∀ t, t.At root limit σ →
    InOrder root limit (c t).2.moments ∧ ∀ a, (c t).1 = .ok a → (c t).2.At root limit σ'

namespace Leads

variable {root : Part} {limit : Int} {α β : Type} {σ σ' σ'' : Stage}

theorem pure (a : α) : Leads root limit σ σ (pure a) := fun _ ht => ⟨ht.order, fun _ _ => ht⟩

theorem throw (f : Fault) : Leads root limit σ σ' (throw f : Traced α) :=
  fun _ ht => ⟨ht.order, nofun⟩

theorem lift {c : Eval α} (h : ∀ m, (c m).2.callDepth = m.callDepth) :
    Leads root limit σ σ (Traced.lift c) := fun t ht =>
  ⟨ht.order, fun _ _ => ⟨ht.order, ht.parts, ht.entered, (h t.machine).trans ht.calls, ht.within⟩⟩

theorem read (s : ScopeId) (x : String) : Leads root limit σ σ (Traced.lift (Eval.read s x)) :=
  lift fun m => by
    unfold Eval.read
    split <;> rfl

/-- What the machine tells is known from the stage. -/
theorem callDepth {next : Nat → Traced α} (h : Leads root limit σ σ' (next σ.calls)) :
    Leads root limit σ σ' (Traced.lift Eval.callDepth >>= next) := by
  intro t ht
  have hdepth : t.machine.callDepth = σ.calls := ht.calls
  rw [Eval.bind_apply]
  simp only [Traced.lift, Eval.callDepth, hdepth]
  exact h t ht

theorem bind {c : Traced α} {next : α → Traced β} (h : Leads root limit σ σ' c)
    (hnext : ∀ a, Leads root limit σ' σ'' (next a)) : Leads root limit σ σ'' (c >>= next) := by
  intro t ht
  obtain ⟨horder, hok⟩ := h t ht
  rw [Eval.bind_apply]
  rcases hc : c t with ⟨f | a, t'⟩ <;> rw [hc] at horder hok
  · exact ⟨horder, nofun⟩
  · exact hnext a t' (hok a rfl)

/-- An event may lead to another stage, at which events and machine tell the same. -/
theorem note {event : Event} (hinside : event.Inside root σ.parts)
    (hparts : ∀ moments m, underWay moments = σ.parts →
      underWay (⟨event, m⟩ :: moments) = σ'.parts)
    (hentered : event.calls + σ.entered = σ'.entered) (hsettled : σ'.entered = σ.calls)
    (hcalls : σ'.calls = σ.calls) : Leads root limit σ σ' (Traced.note event) := by
  intro t ht
  have htold : callsUnderWay (⟨event, t.machine⟩ :: t.moments) = σ'.entered := by
    rw [callsUnderWay, ht.entered]
    exact hentered
  have hdepth : t.machine.callDepth = σ.calls := ht.calls
  have hfollows : Moment.Follows root limit t.moments ⟨event, t.machine⟩ := by
    refine ⟨ht.parts ▸ hinside, ?_, ?_⟩
    · rw [htold, hsettled, hdepth]
    · rw [hdepth]
      exact ht.within
  have horder : InOrder root limit (⟨event, t.machine⟩ :: t.moments) := ⟨hfollows, ht.order⟩
  refine ⟨horder, fun _ _ => ⟨horder, hparts _ _ ht.parts, htold, hdepth.trans hcalls.symm, ?_⟩⟩
  rw [hcalls]
  exact ht.within

section Settled

variable {parts : List Part} {calls : Nat}

/-- An event that neither begins nor ends anything. -/
theorem noteQuiet {event : Event} (hinside : event.Inside root parts) (hcalls : event.calls = 0)
    (hparts : ∀ moments m, underWay (⟨event, m⟩ :: moments) = underWay moments) {c : Traced α}
    (h : Leads root limit (.settled parts calls) σ' c) :
    Leads root limit (.settled parts calls) σ' (Traced.note event >>= fun _ => c) := by
  have hstays :
      Leads root limit (.settled parts calls) (.settled parts calls) (Traced.note event) := by
    refine note hinside (fun moments m hmoments => ?_) ?_ rfl rfl
    · rw [hparts, hmoments]
    · rw [hcalls, Int.zero_add]
  exact hstays.bind fun _ => h

theorem begins {part : Part} (hinside : (Event.begins part).Inside root parts) :
    Leads root limit (.settled parts calls) (.settled (part :: parts) calls)
      (Traced.note (.begins part)) := by
  refine note hinside (fun moments m hmoments => ?_) (Int.zero_add _) rfl rfl
  rw [underWay, hmoments]

/-- A part that is no application takes no call back when it ends. -/
theorem spanning {part : Part} (hinside : (Event.begins part).Inside root parts)
    (hpart : ∀ v, (Event.ends part v).calls = 0) {c : Traced Value}
    (h : Leads root limit (.settled (part :: parts) calls) (.settled (part :: parts) calls) c) :
    Leads root limit (.settled parts calls) (.settled parts calls) (Traced.spanning part c) := by
  refine (begins hinside).bind fun _ => h.bind fun v => ?_
  have hends : Leads root limit (.settled (part :: parts) calls) (.settled parts calls)
      (Traced.note (.ends part v)) := by
    refine note (.within (.ends part v)) (fun moments m hmoments => ?_) ?_ rfl rfl
    · rw [underWay, hmoments]
      rfl
    · rw [hpart, Int.zero_add]
  exact hends.bind fun _ => .pure v

theorem unlessReturned {v : Value} {next : Value → Traced Value}
    (hnext : ∀ v, Leads root limit σ σ (next v)) :
    Leads root limit σ σ (Traced.unlessReturned v next) := by
  cases v with
  | returned v => exact .pure _
  | int | bool | null | fn => exact hnext _

/-- The usual way to go on with a value. -/
theorem carry {c : Traced Value} {next : Value → Traced Value} (h : Leads root limit σ σ c)
    (hnext : ∀ v, Leads root limit σ σ (next v)) :
    Leads root limit σ σ (c >>= fun v => Traced.unlessReturned v next) :=
  h.bind fun _ => .unlessReturned hnext

/-- A call that the limit lets begin enters its body, and is told to have done so when it is
    over. -/
theorem withinCall {f : Value} {args : List Value} {s : ScopeId} {body : Block}
    (hlimit : calls < limit) (hbody : (Part.application f args).Allows (.enters s body))
    {c : Traced α} (h : Leads root limit (.settled (.application f args :: parts) (calls + 1))
      (.settled (.application f args :: parts) (calls + 1)) c) :
    Leads root limit (.settled (.application f args :: parts) calls)
      ⟨.application f args :: parts, calls + 1, calls⟩
      (Traced.withinCall (Traced.note (.enters s body) >>= fun _ => c)) := by
  intro t ht
  have henters : Leads root limit ⟨.application f args :: parts, calls, calls + 1⟩
      (.settled (.application f args :: parts) (calls + 1)) (Traced.note (.enters s body)) := by
    refine note (.within hbody) (fun moments m hmoments => hmoments) ?_ rfl rfl
    show (1 : Int) + calls = (calls + 1 : Nat)
    omega
  have hentered : Trace.At root limit ⟨.application f args :: parts, calls, calls + 1⟩
      { t with machine.callDepth := t.machine.callDepth + 1 } :=
    ⟨ht.order, ht.parts, ht.entered, congrArg (· + 1) ht.calls, fun _ => hlimit⟩
  obtain ⟨horder, hok⟩ := (henters.bind fun _ => h) _ hentered
  refine ⟨horder, fun a ha => ?_⟩
  obtain ⟨-, hparts, hcalls, hdepth, -⟩ := hok a ha
  exact ⟨horder, hparts, hcalls, congrArg (· - 1) hdepth, fun _ => Int.le_of_lt hlimit⟩

end Settled

/-- On a machine on which no call is under way, all that happens is in order. -/
theorem inOrder {c : Traced α} (h : Leads root limit (.settled [] 0) σ c) {m : Machine}
    (hm : m.callDepth = 0) : InOrder root limit (c (.start m)).2.moments :=
  (h (.start m) ⟨trivial, rfl, rfl, hm, nofun⟩).1

theorem endingCalls {parts : List Part} {c : Traced α}
    (h : Leads root limit (.settled parts 0) (.settled parts 0) c) :
    Leads root limit (.settled parts 0) (.settled parts 0) (Traced.endingCalls c) := by
  intro t ht
  obtain ⟨horder, hok⟩ := h t ht
  refine ⟨horder, fun a ha => ?_⟩
  obtain ⟨-, hparts, hcalls, -, hwithin⟩ := hok a ha
  exact ⟨horder, hparts, hcalls, rfl, hwithin⟩

end Leads

/-! ### Pieces of the evaluator -/

/-- Whatever is under way, if the expression may begin then its evaluation is in order. -/
def LeadsEval (root : Part) (limit : Int) (eval : ScopeId → Expr → Traced Value) : Prop :=
  ∀ s e {parts : List Part} {calls : Nat}, (Event.begins (.expression e)).Inside root parts →
    Leads root limit (.settled parts calls) (.settled parts calls) (eval s e)

section Pieces

variable {root : Part} {limit : Int} {eval : ScopeId → Expr → Traced Value}

mutual
theorem leads_statement (heval : LeadsEval root limit eval) (s : ScopeId) {parts : List Part}
    {calls : Nat} : ∀ stmt : Stmt,
      Leads root limit (.settled (.statement stmt :: parts) calls)
        (.settled (.statement stmt :: parts) calls) (Traced.statement eval s stmt)
  | .empty => .pure _
  | .define _ e => (heval s e (.within .defined)).carry fun v =>
      (Leads.lift fun _ => rfl).bind fun _ =>
        .noteQuiet (.within (.binds s v)) rfl (fun _ _ => rfl) (.pure _)
  | .ret e => (heval s e (.within .returned)).carry fun _ => .pure _
  | .expr e => heval s e (.within .value)
  | .block body =>
    .spanning (.within .block) (fun _ => rfl) (leads_statements heval s body fun _ h => h)
termination_by structural stmt => stmt

theorem leads_statements (heval : LeadsEval root limit eval) (s : ScopeId) {parts : List Part}
    {calls : Nat} {whole : Block} :
    ∀ (body : List Stmt) {last : Value}, (∀ stmt ∈ body, stmt ∈ whole) →
      Leads root limit (.settled (.sequence whole :: parts) calls)
        (.settled (.sequence whole :: parts) calls) (Traced.statements eval s body last)
  | [], _, _ => .pure _
  | stmt :: rest, _, h => by
    obtain ⟨hstmt, hrest⟩ := List.forall_mem_cons.mp h
    refine Leads.carry ?_ fun v => leads_statements heval s rest hrest
    exact .spanning (.within (.statement hstmt)) (fun _ => rfl) (leads_statement heval s stmt)
termination_by structural body => body
end

variable (heval : LeadsEval root limit eval) {parts : List Part} {calls : Nat}

include heval

theorem leads_block (s : ScopeId) {body : Block}
    (h : (Event.begins (.sequence body)).Inside root parts) :
    Leads root limit (.settled parts calls) (.settled parts calls) (Traced.block eval s body) :=
  .spanning h (fun _ => rfl) (leads_statements heval s body fun _ h => h)

theorem leads_withArguments (s : ScopeId) {es : List Expr}
    (h : ∀ e ∈ es, (Event.begins (.expression e)).Inside root parts)
    {next : List Value → Traced Value}
    (hnext : ∀ vs, Leads root limit (.settled parts calls) (.settled parts calls) (next vs)) :
    Leads root limit (.settled parts calls) (.settled parts calls)
      (Traced.withArguments eval s es next) := by
  induction es generalizing next with
  | nil => exact hnext []
  | cons e es ih =>
    obtain ⟨he, hes⟩ := List.forall_mem_cons.mp h
    exact (heval s e he).carry fun v => ih hes fun vs => hnext (v :: vs)

theorem leads_apply (f : Value) (args : List Value)
    (h : (Event.begins (.application f args)).Inside root parts) :
    Leads root limit (.settled parts calls) (.settled parts calls)
      (Traced.apply eval limit f args) := by
  -- The call that has been entered is over when the application ends.
  have hends (v : Value) : Leads root limit ⟨.application f args :: parts, calls + 1, calls⟩
      (.settled parts calls) (Traced.note (.ends (.application f args) v)) := by
    refine .note (.within (.ends _ v)) (fun moments m hmoments => ?_) ?_ rfl rfl
    · rw [underWay, hmoments]
      rfl
    · show (-1 : Int) + (calls + 1) = calls
      omega
  refine (Leads.begins h).bind fun _ => Leads.bind ?_ fun v => (hends v).bind fun _ => .pure v
  cases f with
  | int | bool | null | returned => exact .throw _
  | fn params body captured =>
    simp only
    split
    · exact .throw _
    · refine .callDepth ?_
      split
      · exact .throw _
      · next hlimit =>
        refine (Leads.lift fun _ => rfl).bind fun s => ?_
        let inside := Part.application (.fn params body captured) args :: parts
        have hbody : Leads root limit (.settled inside (calls + 1)) (.settled inside (calls + 1))
            (Traced.block eval s body) := leads_block heval s (.within .entered)
        exact (Leads.withinCall (Int.not_le.mp hlimit) (.enters s) hbody).bind fun v => .pure _

theorem leads_choose (s : ScopeId) {test : Expr} {body : Block} {other : Option Block} (v : Value) :
    Leads root limit (.settled (.expression (.cond test body other) :: parts) calls)
      (.settled (.expression (.cond test body other) :: parts) calls)
      (Traced.choose eval s v body other) := by
  refine .noteQuiet (.within (.tests v)) rfl (fun _ _ => rfl) ?_
  refine (Leads.lift fun _ => rfl).bind fun b => ?_
  cases b with
  | true => exact leads_block heval s (.within .body)
  | false =>
    cases other with
    | some other => exact leads_block heval s (.within .other)
    | none => exact .pure _

theorem leads_step (s : ScopeId) (e : Expr) :
    Leads root limit (.settled (.expression e :: parts) calls)
      (.settled (.expression e :: parts) calls)
      (Traced.step eval limit s e) := by
  cases e with
  | empty | int | bool | fn => exact .pure _
  | ident x => exact .read s x
  | unary op e =>
    refine (heval s e (.within .operand)).carry fun v => ?_
    exact .noteQuiet (.within (.unary v)) rfl (fun _ _ => rfl) (.lift fun _ => rfl)
  | binary l op r =>
    refine (heval s l (.within .left)).carry fun v => (heval s r (.within .right)).carry fun w => ?_
    exact .noteQuiet (.within (.binary v w)) rfl (fun _ _ => rfl) (.lift fun _ => rfl)
  | cond test body other =>
    exact (heval s test (.within .test)).carry fun v => leads_choose heval s v
  | call callee args =>
    refine (heval s callee (.within .callee)).carry fun f => ?_
    refine leads_withArguments heval s (fun e he => .within (.argument he)) fun vs => ?_
    exact leads_apply heval f vs (.within (.applied f vs))

end Pieces

/-! ### Whole evaluations -/

theorem leads_expression (root : Part) (limit : Int) (allowance : Nat) :
    LeadsEval root limit (Traced.expression limit allowance) := by
  induction allowance with
  | zero => exact fun s e _ _ h => .spanning h (fun _ => rfl) (.throw _)
  | succ allowance ih => exact fun s e _ _ h => .spanning h (fun _ => rfl) (leads_step ih s e)

theorem leads_program (limit : Int) (allowance : Nat) (s : ScopeId) (p : Program) :
    Leads (.sequence p) limit (.settled [] 0) (.settled [] 0)
      (Traced.program limit allowance s p) :=
  (leads_block (leads_expression _ limit allowance) s .outermost).endingCalls.bind
    fun _ => .pure _

end Treewalk
