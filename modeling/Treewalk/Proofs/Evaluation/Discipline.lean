/-
  Treewalk/Proofs/Evaluation/Discipline.lean
  ==========================================
  **Disciplines**: sets of trees, values and faults that evaluation does not
  lead out of.

  When a discipline is kept by the trees that are evaluated and by all values
  that are bound, then it is kept by every value and every machine that occurs
  in the course of the evaluation, and by the fault, if it fails.  What has to
  be known for this is what the parts of trees, the results of operations and
  the faults of single operations are; that is what makes a discipline.

  A value may be wrapped on its way out of a call or program, and then it is
  what is in the wrapper that keeps the discipline.
-/
import Treewalk.Proofs.Evaluation.Plain
import Treewalk.Proofs.Evaluation.Trace

namespace Treewalk

/-! ### Disciplines -/

structure Discipline where
  expr : Expr → Prop
  stmt : Stmt → Prop
  /-- Which values there are, apart from wrappers. -/
  value : Value → Prop
  fault : Fault → Prop
  -- Parts of trees.
  unary_part {op : String} {e : Expr} : expr (.unary op e) → expr e
  binary_parts {l r : Expr} {op : String} : expr (.binary l op r) → expr l ∧ expr r
  cond_parts {test : Expr} {body : Block} {other : Option Block} :
    expr (.cond test body other) →
      expr test ∧ (∀ s ∈ body, stmt s) ∧ ∀ b, other = some b → ∀ s ∈ b, stmt s
  call_parts {callee : Expr} {args : List Expr} :
    expr (.call callee args) → expr callee ∧ ∀ e ∈ args, expr e
  define_part {x : String} {e : Expr} : stmt (.define x e) → expr e
  ret_part {e : Expr} : stmt (.ret e) → expr e
  expr_part {e : Expr} : stmt (.expr e) → expr e
  block_parts {body : Block} : stmt (.block body) → ∀ s ∈ body, stmt s
  -- Values that trees and operations make.
  plain {v : Value} : value v → v.Plain
  null : value .null
  int {n : Int} : expr (.int n) → value (.int n)
  computed {v : Value} : v.Computed → value v
  fn {params : List String} {body : Block} (s : ScopeId) :
    expr (.fn params body) → value (.fn params body s)
  body {params : List String} {body : Block} {s : ScopeId} :
    value (.fn params body s) → ∀ stmt' ∈ body, stmt stmt'
  -- Faults.
  unbound (x : String) : fault (.unbound x)
  truth {v : Value} {f : Fault} : value v → v.truth = .error f → fault f
  unary {op : String} {e : Expr} {v : Value} {f : Fault} :
    expr (.unary op e) → value v → v.unary op = .error f → fault f
  binary {l r : Expr} {op : String} {v w : Value} {f : Fault} :
    expr (.binary l op r) → value v → value w → v.binary op w = .error f → fault f
  callee {f : Value} : value f → fault (.notFunction f.kind)
  arity (expected got : Nat) : fault (.wrongArity expected got)
  calls (limit : Int) : fault (.callsTooDeep limit)
  nesting : fault .nestedTooDeep

namespace Discipline

variable (D : Discipline)

/-- The value keeps the discipline, or what it is a wrapper of. -/
def Carried (v : Value) : Prop := D.value v.unwrap

/-- What the event is about keeps the discipline. -/
def Fits : Event → Prop
  | .begins (.expression e) => D.expr e
  | .begins (.statement stmt) => D.stmt stmt
  | .begins (.sequence body) | .enters _ body => ∀ stmt ∈ body, D.stmt stmt
  | .begins (.application f args) => D.value f ∧ ∀ v ∈ args, D.value v
  | .ends (.application f args) v => D.value f ∧ (∀ v ∈ args, D.value v) ∧ D.value v
  | .ends _ v => D.Carried v
  | .unary _ v | .tests v | .binds _ _ v => D.value v
  | .binary v _ w => D.value v ∧ D.value w

/-- All that is bound keeps the discipline, now and at every moment that there was. -/
structure Kept (t : Trace) : Prop where
  scopes : t.machine.scopes.Each D.value
  moments : ∀ moment ∈ t.moments, moment.machine.scopes.Each D.value ∧ D.Fits moment.event

/-- The computation keeps the discipline, and ends with a value in `P` or a fault of the
    discipline. -/
def Keeps {α : Type} (P : α → Prop) (c : Traced α) : Prop :=
  ∀ t, D.Kept t →
    D.Kept (c t).2 ∧ (∀ a, (c t).1 = .ok a → P a) ∧ ∀ f, (c t).1 = .error f → D.fault f

variable {D}

theorem Carried.of_value {v : Value} (h : D.value v) : D.Carried v := by
  rwa [Carried, (D.plain h).unwrap]

/-- Every value that a fitting event is about keeps the discipline, or what it wraps does. -/
theorem Fits.carried {event : Event} (h : D.Fits event) : ∀ v ∈ event.values, D.Carried v := by
  have hall {vs : List Value} (h : ∀ v ∈ vs, D.value v) : ∀ v ∈ vs, D.Carried v :=
    fun v hv => .of_value (h v hv)
  cases event with
  | begins part =>
    cases part with
    | application f args => exact hall (List.forall_mem_cons.mpr h)
    | expression | statement | sequence => nofun
  | ends part v =>
    cases part with
    | application f args =>
      obtain ⟨hf, hargs, hv⟩ := h
      have hend : ∀ w ∈ [v], D.value w := List.forall_mem_singleton.mpr hv
      exact hall (List.forall_mem_cons.mpr ⟨hf, List.forall_mem_append.mpr ⟨hargs, hend⟩⟩)
    | expression | statement | sequence => exact List.forall_mem_singleton.mpr h
  | unary | tests | binds => exact hall (List.forall_mem_singleton.mpr h)
  | binary v op w =>
    exact hall (List.forall_mem_cons.mpr ⟨h.1, List.forall_mem_singleton.mpr h.2⟩)
  | enters => nofun

theorem computed_of_bool (b : Bool) : D.value (.bool b) := D.computed (v := .bool b) trivial

namespace Keeps

variable {α β : Type} {P : α → Prop} {Q : β → Prop}

theorem mono {P' : α → Prop} {c : Traced α} (h : D.Keeps P c) (hP : ∀ a, P a → P' a) :
    D.Keeps P' c :=
  fun t ht => ⟨(h t ht).1, fun a ha => hP a ((h t ht).2.1 a ha), (h t ht).2.2⟩

theorem pure {a : α} (h : P a) : D.Keeps P (pure a) := by
  intro t ht
  refine ⟨ht, fun a' ha' => ?_, nofun⟩
  cases ha'
  exact h

theorem throw {f : Fault} (h : D.fault f) : D.Keeps P (throw f) := by
  intro t ht
  refine ⟨ht, nofun, fun f' hf' => ?_⟩
  cases hf'
  exact h

theorem ofResult {r : Except Fault α} (hok : ∀ a, r = .ok a → P a)
    (herror : ∀ f, r = .error f → D.fault f) : D.Keeps P (Traced.lift (Eval.ofResult r)) :=
  fun _ ht => ⟨ht, hok, herror⟩

theorem read (s : ScopeId) (x : String) : D.Keeps D.value (Traced.lift (Eval.read s x)) := by
  intro t ht
  simp only [Traced.lift, Eval.read]
  cases hfind : t.machine.scopes.find? s x with
  | none =>
    refine ⟨ht, nofun, fun f hf => ?_⟩
    cases hf
    exact D.unbound x
  | some v =>
    refine ⟨ht, fun v' hv' => ?_, nofun⟩
    cases hv'
    exact ht.scopes.find? hfind

theorem bind {c : Traced α} {next : α → Traced β} (h : D.Keeps P c)
    (hnext : ∀ a, P a → D.Keeps Q (next a)) : D.Keeps Q (c >>= next) := by
  intro t ht
  obtain ⟨hkept, hok, herror⟩ := h t ht
  rw [Eval.bind_apply]
  rcases hc : c t with ⟨f | a, t'⟩ <;> rw [hc] at hkept hok herror
  · exact ⟨hkept, nofun, fun f' hf' => herror f' (by cases hf'; rfl)⟩
  · exact hnext a (hok a rfl) t' hkept

theorem note (event : Event) (h : D.Fits event) {c : Traced α} (hc : D.Keeps P c) :
    D.Keeps P (Traced.note event >>= fun _ => c) := by
  intro t ht
  refine hc _ ⟨ht.scopes, ?_⟩
  exact List.forall_mem_cons.mpr ⟨⟨ht.scopes, h⟩, ht.moments⟩

theorem define (s : ScopeId) (x : String) {v : Value} (h : D.value v) :
    D.Keeps (fun _ => True) (Traced.lift (Eval.bind s x v)) :=
  fun _ ht => ⟨⟨ht.scopes.bind s x h, ht.moments⟩, fun _ _ => trivial, nofun⟩

theorem enclose (s : ScopeId) {b : Bindings} (h : b.Each D.value) :
    D.Keeps (fun _ => True) (Traced.lift (Eval.enclose s b)) :=
  fun _ ht => ⟨⟨ht.scopes.enclose s h, ht.moments⟩, fun _ _ => trivial, nofun⟩

theorem callDepth : D.Keeps (fun _ => True) (Traced.lift Eval.callDepth) :=
  fun _ ht => ⟨ht, fun _ _ => trivial, nofun⟩

theorem withinCall {c : Traced α} (h : D.Keeps P c) : D.Keeps P (Traced.withinCall c) := by
  intro t ht
  obtain ⟨hkept, hresult⟩ :=
    h { t with machine.callDepth := t.machine.callDepth + 1 } ⟨ht.scopes, ht.moments⟩
  exact ⟨⟨hkept.scopes, hkept.moments⟩, hresult⟩

theorem endingCalls {c : Traced α} (h : D.Keeps P c) : D.Keeps P (Traced.endingCalls c) := by
  intro t ht
  obtain ⟨hkept, hresult⟩ := h t ht
  exact ⟨⟨hkept.scopes, hkept.moments⟩, hresult⟩

theorem spanning (part : Part) {P : Value → Prop} {c : Traced Value}
    (hbegins : D.Fits (.begins part)) (hends : ∀ v, P v → D.Fits (.ends part v))
    (h : D.Keeps P c) : D.Keeps P (Traced.spanning part c) :=
  .note (.begins part) hbegins <| h.bind fun v hv => .note (.ends part v) (hends v hv) (.pure hv)

theorem carry {c : Traced Value} {next : Value → Traced Value} (h : D.Keeps D.Carried c)
    (hnext : ∀ v, D.value v → D.Keeps D.Carried (next v)) :
    D.Keeps D.Carried (c >>= fun v => Traced.unlessReturned v next) := by
  refine h.bind fun v hv => ?_
  cases v with
  | returned v => exact .pure hv
  | int | bool | null | fn => exact hnext _ hv

/-- Taking the wrapper off leaves a value of the discipline. -/
theorem unwrap {c : Traced Value} (h : D.Keeps D.Carried c) :
    D.Keeps D.value (c >>= fun v => Pure.pure v.unwrap) :=
  h.bind fun _ hv => .pure hv

end Keeps

/-! ### Pieces of the evaluator -/

section Pieces

variable {eval : ScopeId → Expr → Traced Value}

mutual
theorem keeps_statement (heval : ∀ s e, D.expr e → D.Keeps D.Carried (eval s e)) (s : ScopeId) :
    ∀ stmt : Stmt, D.stmt stmt → D.Keeps D.Carried (Traced.statement eval s stmt)
  | .empty, _ => .pure (.of_value D.null)
  | .define x e, h => (heval s e (D.define_part h)).carry fun _ hv =>
      (Keeps.define s x hv).bind fun _ _ => .note (.binds s x _) hv (.pure (.of_value D.null))
  | .ret e, h => (heval s e (D.ret_part h)).carry fun _ hv => .pure hv
  | .expr e, h => heval s e (D.expr_part h)
  | .block body, h =>
    .spanning (.sequence body) (D.block_parts h) (fun _ hv => hv) <|
      keeps_statements heval s body (D.block_parts h) (.of_value D.null)
termination_by structural stmt => stmt

theorem keeps_statements (heval : ∀ s e, D.expr e → D.Keeps D.Carried (eval s e)) (s : ScopeId) :
    ∀ (body : List Stmt) {last : Value}, (∀ stmt ∈ body, D.stmt stmt) → D.Carried last →
      D.Keeps D.Carried (Traced.statements eval s body last)
  | [], _, _, hlast => .pure hlast
  | stmt :: rest, _, h, _ => by
    obtain ⟨hstmt, hrest⟩ := List.forall_mem_cons.mp h
    have hfirst := keeps_statement heval s stmt hstmt
    refine (Keeps.spanning (.statement stmt) hstmt (fun _ hv => hv) hfirst).carry fun v hv => ?_
    exact keeps_statements heval s rest hrest (.of_value hv)
termination_by structural body => body
end

variable (heval : ∀ s e, D.expr e → D.Keeps D.Carried (eval s e))

include heval

theorem keeps_block (s : ScopeId) {body : Block} (h : ∀ stmt ∈ body, D.stmt stmt) :
    D.Keeps D.Carried (Traced.block eval s body) :=
  .spanning (.sequence body) h (fun _ hv => hv) <|
    keeps_statements heval s body h (.of_value D.null)

theorem keeps_withArguments (s : ScopeId) {es : List Expr} (h : ∀ e ∈ es, D.expr e)
    {next : List Value → Traced Value}
    (hnext : ∀ vs, (∀ v ∈ vs, D.value v) → D.Keeps D.Carried (next vs)) :
    D.Keeps D.Carried (Traced.withArguments eval s es next) := by
  induction es generalizing next with
  | nil => exact hnext [] nofun
  | cons e es ih =>
    obtain ⟨he, hes⟩ := List.forall_mem_cons.mp h
    refine (heval s e he).carry fun v hv => ih hes fun vs hvs => ?_
    exact hnext (v :: vs) (List.forall_mem_cons.mpr ⟨hv, hvs⟩)

theorem keeps_apply (limit : Int) {f : Value} {args : List Value} (hf : D.value f)
    (hargs : ∀ v ∈ args, D.value v) : D.Keeps D.value (Traced.apply eval limit f args) := by
  refine .spanning (.application f args) ⟨hf, hargs⟩ (fun v hv => ⟨hf, hargs, hv⟩) ?_
  have hcallee : D.fault (.notFunction f.kind) := D.callee hf
  cases f with
  | int | bool | null | returned => exact .throw hcallee
  | fn params body captured =>
    have hbody := D.body hf
    simp only
    split
    · exact .throw (D.arity _ _)
    · refine Keeps.callDepth.bind fun depth _ => ?_
      split
      · exact .throw (D.calls _)
      · refine (Keeps.enclose _ (Bindings.each_parameters params hargs)).bind fun s _ => ?_
        exact (Keeps.note (.enters s body) hbody (keeps_block heval s hbody)).withinCall.unwrap

theorem keeps_choose (s : ScopeId) {test : Value} (htest : D.value test) {body : Block}
    (hbody : ∀ stmt ∈ body, D.stmt stmt) {other : Option Block}
    (hother : ∀ b, other = some b → ∀ stmt ∈ b, D.stmt stmt) :
    D.Keeps D.Carried (Traced.choose eval s test body other) := by
  have htruth : D.Keeps (fun _ => True) (Traced.lift (Eval.ofResult test.truth)) :=
    .ofResult (fun _ _ => trivial) fun f => D.truth htest
  refine .note (.tests test) htest (htruth.bind fun b _ => ?_)
  cases b with
  | true => exact keeps_block heval s hbody
  | false =>
    cases other with
    | some other => exact keeps_block heval s (hother other rfl)
    | none => exact .pure (.of_value D.null)

theorem keeps_step (limit : Int) (s : ScopeId) {e : Expr} (he : D.expr e) :
    D.Keeps D.Carried (Traced.step eval limit s e) := by
  cases e with
  | empty => exact .pure (.of_value D.null)
  | ident x => exact (Keeps.read s x).mono fun _ => .of_value
  | int n => exact .pure (.of_value (D.int he))
  | bool b => exact .pure (.of_value (computed_of_bool b))
  | fn params body => exact .pure (.of_value (D.fn s he))
  | unary op e =>
    refine (heval s e (D.unary_part he)).carry fun v hv => .note (.unary op v) hv ?_
    refine .ofResult (fun w hw => .of_value (D.computed (computed_unary hw))) fun f hf => ?_
    exact D.unary he hv hf
  | binary l op r =>
    obtain ⟨hl, hr⟩ := D.binary_parts he
    refine (heval s l hl).carry fun v hv => (heval s r hr).carry fun w hw => ?_
    refine .note (.binary v op w) ⟨hv, hw⟩ ?_
    refine .ofResult (fun u hu => .of_value (D.computed (computed_binary hu))) fun f hf => ?_
    exact D.binary he hv hw hf
  | cond test body other =>
    obtain ⟨htest, hbody, hother⟩ := D.cond_parts he
    exact (heval s test htest).carry fun v hv => keeps_choose heval s hv hbody hother
  | call callee args =>
    obtain ⟨hcallee, hargs⟩ := D.call_parts he
    refine (heval s callee hcallee).carry fun f hf => keeps_withArguments heval s hargs ?_
    intro vs hvs
    exact (keeps_apply heval limit hf hvs).mono fun _ => .of_value

end Pieces

/-! ### Whole evaluations -/

theorem keeps_expression (D : Discipline) (limit : Int) (allowance : Nat) (s : ScopeId) (e : Expr)
    (he : D.expr e) : D.Keeps D.Carried (Traced.expression limit allowance s e) := by
  induction allowance generalizing s e with
  | zero => exact .spanning (.expression e) he (fun _ hv => hv) (.throw D.nesting)
  | succ allowance ih =>
    exact .spanning (.expression e) he (fun _ hv => hv) (keeps_step ih limit s he)

theorem keeps_program (D : Discipline) (limit : Int) (allowance : Nat) (s : ScopeId) {p : Program}
    (hp : ∀ stmt ∈ p, D.stmt stmt) : D.Keeps D.value (Traced.program limit allowance s p) :=
  (keeps_block (D.keeps_expression limit allowance) s hp).endingCalls.unwrap

end Discipline

end Treewalk
