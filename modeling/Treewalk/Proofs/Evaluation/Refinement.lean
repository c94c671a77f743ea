/-
  Treewalk/Proofs/Evaluation/Refinement.lean
  ==========================================
  **Wrapping implements aborting.**  The evaluator passes a returned value on
  in a wrapper, and looks at each value that it meets whether it is wrapped;
  the reference evaluator aborts.  Both come to the same, on every machine in
  which no name is bound to a wrapper.

  The invariant is that wrappers and exits correspond: a computation of the
  reference never comes to a wrapper, hands one to an exit, or binds one.
-/
import Treewalk.Proofs.Evaluation.Plain
import Treewalk.Proofs.Evaluation.Reference

namespace Treewalk

/-! ### Related computations -/

/-- The result of the evaluator, given that of the reference: what was to abort is wrapped. -/
def wrapped : Except Exit Value → Except Fault Value
  | .ok v => .ok v
  | .error (.abort v) => .ok (.returned v)
  | .error (.fault f) => .error f

/-- The value that a result holds, if any, is plain. -/
def PlainResult : Except Exit Value → Prop
  | .ok v | .error (.abort v) => v.Plain
  | .error (.fault _) => True

/-- From every plain machine, `c` does what `d` does, except that it wraps what `d` aborts
    with; and no wrapper is in what `d` leaves. -/
def Refines (c : Eval Value) (d : Reference Value) : Prop :=
  ∀ m, m.Plain → c m = (wrapped (d m).1, (d m).2) ∧ PlainResult (d m).1 ∧ (d m).2.Plain

/-- From every plain machine, `c` and `d` do the same, without any wrapper in what is left. -/
def Agrees (c d : Eval Value) : Prop :=
  ∀ m, m.Plain → c m = d m ∧ (∀ v, (d m).1 = .ok v → v.Plain) ∧ (d m).2.Plain

namespace Refines

theorem pure {v : Value} (hv : v.Plain) : Refines (pure v) (pure v) :=
  fun _ hm => ⟨rfl, hv, hm⟩

theorem fault (f : Fault) : Refines (throw f) (throw (.fault f)) :=
  fun _ hm => ⟨rfl, trivial, hm⟩

theorem abort {v : Value} (hv : v.Plain) : Refines (Pure.pure (.returned v)) (throw (.abort v)) :=
  fun _ hm => ⟨rfl, hv, hm⟩

/-- The ways in which related computations can end. -/
theorem outcome {c : Eval Value} {d : Reference Value} (h : Refines c d) {m : Machine}
    (hm : m.Plain) :
    (∃ v m', c m = (.ok v, m') ∧ d m = (.ok v, m') ∧ v.Plain ∧ m'.Plain) ∨
    (∃ v m', c m = (.ok (.returned v), m') ∧ d m = (.error (.abort v), m') ∧
      v.Plain ∧ m'.Plain) ∨
    (∃ f m', c m = (.error f, m') ∧ d m = (.error (.fault f), m') ∧ m'.Plain) := by
  obtain ⟨hc, hresult, hplain⟩ := h m hm
  rw [hc]
  rcases hd : d m with ⟨(v | f) | v, m'⟩ <;> rw [hd] at hresult hplain
  · exact .inr (.inl ⟨_, m', rfl, rfl, hresult, hplain⟩)
  · exact .inr (.inr ⟨_, m', rfl, rfl, hplain⟩)
  · exact .inl ⟨_, m', rfl, rfl, hresult, hplain⟩

/-- An exit of the reference ends the sequence as a wrapper ends that of the evaluator. -/
theorem bind {c : Eval Value} {d : Reference Value} {next : Value → Eval Value}
    {next' : Value → Reference Value} (h : Refines c d)
    (hnext : ∀ v, v.Plain → Refines (next v) (next' v)) :
    Refines (c >>= fun v => Eval.unlessReturned v next) (d >>= next') := by
  intro m hm
  rw [Eval.bind_apply, Eval.bind_apply]
  rcases h.outcome hm with ⟨v, m', hc, hd, hv, hm'⟩ | ⟨v, m', hc, hd, hv, hm'⟩ |
    ⟨f, m', hc, hd, hm'⟩ <;> rw [hc, hd]
  -- A value of the reference is plain, so the evaluator goes on with it too.
  · simp only [hv.unlessReturned]
    exact hnext v hv m' hm'
  · exact ⟨rfl, hv, hm'⟩
  · exact ⟨rfl, trivial, hm'⟩

/-- The result of an operation is no wrapper, so it needs no look. -/
theorem ofResult {α : Type} {r : Except Fault α} {next : α → Eval Value}
    {next' : α → Reference Value} (hnext : ∀ a, r = .ok a → Refines (next a) (next' a)) :
    Refines (Eval.ofResult r >>= next) (Reference.lift (Eval.ofResult r) >>= next') := by
  cases r with
  | error f => exact Refines.fault f
  | ok a => exact hnext a rfl

/-- Catching the exit of the reference is taking the wrapper off. -/
theorem returning {c : Eval Value} {d : Reference Value} (h : Refines c d) :
    Agrees (c >>= fun v => Pure.pure v.unwrap) (Reference.returning d) := by
  intro m hm
  have hok {v : Value} (hv : v.Plain) (w : Value)
      (heq : (Except.ok v : Except Fault Value) = .ok w) : w.Plain := by
    cases heq
    exact hv
  rw [Eval.bind_apply, Reference.returning]
  rcases h.outcome hm with ⟨v, m', hc, hd, hv, hm'⟩ | ⟨v, m', hc, hd, hv, hm'⟩ |
    ⟨f, m', hc, hd, hm'⟩ <;> rw [hc, hd]
  · exact ⟨by simp only [Eval.pure_apply, hv.unwrap], hok hv, hm'⟩
  · exact ⟨rfl, hok hv, hm'⟩
  · exact ⟨rfl, nofun, hm'⟩

end Refines

namespace Agrees

theorem throw (f : Fault) : Agrees (throw f) (throw f) := fun _ hm => ⟨rfl, nofun, hm⟩

theorem callDepth {next next' : Nat → Eval Value} (h : ∀ n, Agrees (next n) (next' n)) :
    Agrees (Eval.callDepth >>= next) (Eval.callDepth >>= next') :=
  fun m hm => h m.callDepth m hm

theorem enclose {s : ScopeId} {b : Bindings} {next next' : ScopeId → Eval Value} (hb : b.Plain)
    (h : ∀ t, Agrees (next t) (next' t)) :
    Agrees (Eval.enclose s b >>= next) (Eval.enclose s b >>= next') :=
  fun _ hm => h _ _ (hm.enclose s hb)

theorem withinCall {c d : Eval Value} (h : Agrees c d) :
    Agrees (Eval.withinCall c) (Eval.withinCall d) := by
  intro m hm
  obtain ⟨hc, hresult, hplain⟩ := h { m with callDepth := m.callDepth + 1 } hm
  exact ⟨by simp only [Eval.withinCall, hc], hresult, hplain⟩

theorem endingCalls {c d : Eval Value} (h : Agrees c d) :
    Agrees (Eval.endingCalls c) (Eval.endingCalls d) := by
  intro m hm
  obtain ⟨hc, hresult, hplain⟩ := h m hm
  exact ⟨by simp only [Eval.endingCalls, hc], hresult, hplain⟩

theorem lift {c d : Eval Value} (h : Agrees c d) : Refines c (Reference.lift d) := by
  intro m hm
  obtain ⟨hc, hresult, hplain⟩ := h m hm
  rw [hc]
  unfold Reference.lift
  revert hresult hplain
  cases hd : d m with
  | mk result m' =>
    intro hresult hplain
    cases result with
    | ok v => exact ⟨rfl, hresult v rfl, hplain⟩
    | error f => exact ⟨rfl, trivial, hplain⟩

end Agrees

theorem withinCall_unwrap (c : Eval Value) :
    (Eval.withinCall c >>= fun v => pure v.unwrap) =
      Eval.withinCall (c >>= fun v => pure v.unwrap) := by
  funext m
  simp only [Eval.bind_apply, Eval.withinCall]
  cases c { m with callDepth := m.callDepth + 1 } with
  | mk result m' => cases result <;> rfl

theorem endingCalls_unwrap (c : Eval Value) :
    (Eval.endingCalls c >>= fun v => pure v.unwrap) =
      Eval.endingCalls (c >>= fun v => pure v.unwrap) := by
  funext m
  simp only [Eval.bind_apply, Eval.endingCalls]
  cases c m with
  | mk result m' => cases result <;> rfl

/-! ### Pieces -/

theorem refines_ofResult {r : Except Fault Value} (h : ∀ v, r = .ok v → v.Plain) :
    Refines (Eval.ofResult r) (Reference.lift (Eval.ofResult r)) := by
  cases r with
  | error f => exact .fault f
  | ok v => exact .pure (h v rfl)

theorem refines_read (s : ScopeId) (x : String) :
    Refines (Eval.read s x) (Reference.lift (Eval.read s x)) := by
  intro m hm
  unfold Reference.lift Eval.read
  cases hfind : m.scopes.find? s x with
  | none => exact ⟨rfl, trivial, hm⟩
  | some v => exact ⟨rfl, hm.find? hfind, hm⟩

section Pieces

variable {eval : ScopeId → Expr → Eval Value} {ref : ScopeId → Expr → Reference Value}

mutual
theorem refines_statement (heval : ∀ s e, Refines (eval s e) (ref s e)) (s : ScopeId) :
    ∀ stmt : Stmt, Refines (Eval.statement eval s stmt) (Reference.statement ref s stmt)
  | .empty => .pure trivial
  | .define x e => (heval s e).bind fun _ hv _ hm => ⟨rfl, trivial, hm.bind s x hv⟩
  | .ret e => (heval s e).bind fun _ hv => .abort hv
  | .expr e => heval s e
  | .block body => refines_statements heval s body trivial
termination_by structural stmt => stmt

theorem refines_statements (heval : ∀ s e, Refines (eval s e) (ref s e)) (s : ScopeId) :
    ∀ (body : List Stmt) {last : Value}, last.Plain →
      Refines (Eval.statements eval s body last) (Reference.statements ref s body last)
  | [], _, hlast => .pure hlast
  | stmt :: rest, _, _ =>
    (refines_statement heval s stmt).bind fun _ hv => refines_statements heval s rest hv
termination_by structural body => body
end

variable (heval : ∀ s e, Refines (eval s e) (ref s e))

include heval

theorem refines_block (s : ScopeId) (body : Block) :
    Refines (Eval.block eval s body) (Reference.block ref s body) :=
  refines_statements heval s body trivial

theorem refines_withArguments (s : ScopeId) (es : List Expr) {next : List Value → Eval Value}
    {next' : List Value → Reference Value}
    (hnext : ∀ vs, (∀ v ∈ vs, v.Plain) → Refines (next vs) (next' vs)) :
    Refines (Eval.withArguments eval s es next) (Reference.arguments ref s es >>= next') := by
  induction es generalizing next next' with
  | nil =>
    rw [Reference.arguments, pure_bind]
    exact hnext [] nofun
  | cons e es ih =>
    have hsplit : Reference.arguments ref s (e :: es) >>= next' =
        ref s e >>= fun v => Reference.arguments ref s es >>= fun vs => next' (v :: vs) := by
      simp only [Reference.arguments, bind_assoc, pure_bind]
    rw [hsplit, Eval.withArguments]
    refine (heval s e).bind fun v hv => ih fun vs hvs => ?_
    exact hnext (v :: vs) (List.forall_mem_cons.mpr ⟨hv, hvs⟩)

theorem agrees_apply (limit : Int) (f : Value) {args : List Value}
    (hargs : ∀ v ∈ args, v.Plain) :
    Agrees (Eval.apply eval limit f args) (Reference.apply ref limit f args) := by
  cases f with
  | int | bool | null | returned => exact .throw _
  | fn params body captured =>
    simp only [Eval.apply, Reference.apply]
    split
    · exact .throw _
    · refine .callDepth fun depth => ?_
      split
      · exact .throw _
      · refine .enclose (Bindings.plain_parameters params hargs) fun s => ?_
        rw [withinCall_unwrap]
        exact (refines_block heval s body).returning.withinCall

theorem refines_choose (s : ScopeId) (test : Value) (body : Block) (other : Option Block) :
    Refines (Eval.choose eval s test body other)
      (Reference.lift (Eval.ofResult test.truth) >>= fun b =>
        if b then Reference.block ref s body
        else match other with
          | some other => Reference.block ref s other
          | none => return .null) := by
  refine .ofResult fun b _ => ?_
  cases b with
  | true => exact refines_block heval s body
  | false =>
    cases other with
    | some other => exact refines_block heval s other
    | none => exact .pure trivial

theorem refines_step (limit : Int) (s : ScopeId) (e : Expr) :
    Refines (Eval.step eval limit s e) (Reference.step ref limit s e) := by
  cases e with
  | empty | int | bool | fn => exact .pure trivial
  | ident x => exact refines_read s x
  | unary op e =>
    refine (heval s e).bind fun v _ => ?_
    exact refines_ofResult fun _ hv => (scalar_unary hv).plain
  | binary l op r =>
    refine (heval s l).bind fun v _ => (heval s r).bind fun w _ => ?_
    exact refines_ofResult fun _ hv => (scalar_binary hv).plain
  | cond test body other =>
    exact (heval s test).bind fun v _ => refines_choose heval s v body other
  | call callee args =>
    refine (heval s callee).bind fun f _ => refines_withArguments heval s args fun vs hvs => ?_
    exact (agrees_apply heval limit f hvs).lift

end Pieces

/-! ### Whole evaluations -/

theorem refines_expression (limit : Int) (allowance : Nat) (s : ScopeId) (e : Expr) :
    Refines (Eval.expression limit allowance s e) (Reference.expression limit allowance s e) := by
  induction allowance generalizing s e with
  | zero => exact .fault _
  | succ allowance ih => exact refines_step ih limit s e

/-- **Refinement.**  On a machine whose scopes bind no wrapped value, a program comes to the
    value or fault of the reference evaluator, and leaves the same machine.  No wrapper is
    in either. -/
theorem program_refines (limit : Int) (allowance : Nat) (s : ScopeId) (p : Program)
    (m : Machine) (hm : m.Plain) :
    Eval.program limit allowance s p m = Reference.program limit allowance s p m ∧
      (∀ v, (Reference.program limit allowance s p m).1 = .ok v → v.Plain) ∧
      (Reference.program limit allowance s p m).2.Plain := by
  have hblock := refines_block (refines_expression limit allowance) s p
  have hagrees := hblock.returning.endingCalls
  rw [← endingCalls_unwrap] at hagrees
  exact hagrees m hm

/-- A `return` inside an operand ends the program before the name is bound. -/
theorem program_refines_operand :
    Machine.new.Plain ∧
      Eval.program 400 5 0 [.define "x" (.binary (.int 1) "+" (.cond (.bool true)
        [.ret (.int 2)] none))] .new = (.ok (.int 2), .new) ∧
      Reference.program 400 5 0 [.define "x" (.binary (.int 1) "+" (.cond (.bool true)
        [.ret (.int 2)] none))] .new = (.ok (.int 2), .new) := by
  have hrefines := program_refines 400 5 0 [.define "x" (.binary (.int 1) "+" (.cond (.bool true)
    [.ret (.int 2)] none))] .new Machine.plain_new
  exact ⟨Machine.plain_new, hrefines.1.trans rfl, rfl⟩

end Treewalk
