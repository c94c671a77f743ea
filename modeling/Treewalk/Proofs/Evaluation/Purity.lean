/-
  Treewalk/Proofs/Evaluation/Purity.lean
  ======================================
  **Calls see what they are given and nothing else**: what comes of a call is
  decided by the scopes that can be reached from the function and its
  arguments, and by nothing else of the machine.  Where scopes have their
  places does not matter either.

  Two machines that look the same from some scopes are run side by side.  The
  scopes that they open have different places, so the pairing of scopes grows
  on the way, and what is shown of the parts of an evaluation has to hold for
  every pairing that they may meet.
-/
import Treewalk.Proofs.Evaluation.Correspondence
import Treewalk.Proofs.Evaluation.CallLimit
import Treewalk.Proofs.Evaluation.Frame
import Treewalk.Proofs.Evaluation.Reach

namespace Treewalk

/-! ### Two computations side by side -/

/-- On machines that look the same by the pairing, the results of the computations are alike, and
    the machines that they leave look the same by a pairing with perhaps more pairs. -/
def Parallel {α β : Type} (R : Pairing) (P : Pairing → α → β → Prop) (c : Eval α) (d : Eval β) :
    Prop :=
  ∀ m m', m.Similar R m' →
    ∃ R', R.Grows R' ∧ (c m).2.Similar R' (d m').2 ∧ Alike (P R') (c m).1 (d m').1

namespace Parallel

variable {R : Pairing} {α β γ δ : Type} {P : Pairing → α → β → Prop} {Q : Pairing → γ → δ → Prop}

theorem pure {a : α} {b : β} (h : P R a b) : Parallel R P (pure a) (pure b) :=
  fun _ _ hm => ⟨R, .refl R, hm, .ok h⟩

theorem throw (f : Fault) : Parallel R P (throw f) (throw f) :=
  fun _ _ hm => ⟨R, .refl R, hm, .fault f⟩

theorem ofResult {r : Except Fault α} {r' : Except Fault β} (h : Alike (P R) r r') :
    Parallel R P (Eval.ofResult r) (Eval.ofResult r') :=
  fun _ _ hm => ⟨R, .refl R, hm, h⟩

theorem bind {c : Eval α} {d : Eval β} {next : α → Eval γ} {next' : β → Eval δ}
    (h : Parallel R P c d)
    (hnext : ∀ {R' a b}, R.Grows R' → P R' a b → Parallel R' Q (next a) (next' b)) :
    Parallel R Q (c >>= next) (d >>= next') := by
  intro m m' hm
  obtain ⟨R', hgrows, hm', halike⟩ := h m m' hm
  rw [Eval.bind_apply, Eval.bind_apply]
  rcases hc : c m with ⟨r, m₁⟩
  rcases hd : d m' with ⟨r', m₁'⟩
  rw [hc, hd] at hm' halike
  cases halike with
  | error hmessage hdeep => exact ⟨R', hgrows, hm', .error hmessage hdeep⟩
  | ok hab =>
    obtain ⟨R'', hgrows', hlast⟩ := hnext hgrows hab m₁ m₁' hm'
    exact ⟨R'', hgrows.trans hgrows', hlast⟩

variable {s t : ScopeId}

theorem read (hst : R s t) (x : String) :
    Parallel R Value.Corresponds (Eval.read s x) (Eval.read t x) := by
  intro m m' hm
  have hfound := hm.scopes.find? hst x
  unfold Eval.read
  generalize m.scopes.find? s x = found, m'.scopes.find? t x = found' at hfound
  cases hfound with
  | none => exact ⟨R, .refl R, hm, .fault _⟩
  | some hvw => exact ⟨R, .refl R, hm, .ok hvw⟩

theorem define (hst : R s t) (x : String) {v w : Value} (hvw : v.Corresponds R w) :
    Parallel R (fun _ _ _ => True) (Eval.bind s x v) (Eval.bind t x w) :=
  fun _ _ hm => ⟨R, .refl R, ⟨hm.scopes.bind hst x hvw, hm.callDepth⟩, .ok trivial⟩

theorem unlessReturned {v w : Value} (hvw : v.Corresponds R w)
    {next next' : Value → Eval Value} (hnext : Parallel R Value.Corresponds (next v) (next' w)) :
    Parallel R Value.Corresponds (Eval.unlessReturned v next) (Eval.unlessReturned w next') := by
  cases hvw with
  | returned hvw => exact .pure (.returned hvw)
  | int | bool | null | fn => exact hnext

/-- The usual way to go on with a value. -/
theorem carry {c d : Eval Value} {next next' : Value → Eval Value}
    (h : Parallel R Value.Corresponds c d)
    (hnext : ∀ {R' v w}, R.Grows R' → v.Corresponds R' w →
      Parallel R' Value.Corresponds (next v) (next' w)) :
    Parallel R Value.Corresponds (c >>= fun v => Eval.unlessReturned v next)
      (d >>= fun w => Eval.unlessReturned w next') :=
  h.bind fun hgrows hvw => .unlessReturned hvw (hnext hgrows hvw)

theorem withinCall {c : Eval α} {d : Eval β} (h : Parallel R P c d) :
    Parallel R P (Eval.withinCall c) (Eval.withinCall d) := by
  intro m m' hm
  have hentered : Machine.Similar R { m with callDepth := m.callDepth + 1 }
      { m' with callDepth := m'.callDepth + 1 } :=
    ⟨hm.scopes, congrArg (· + 1) hm.callDepth⟩
  obtain ⟨R', hgrows, hleft, halike⟩ := h _ _ hentered
  exact ⟨R', hgrows, ⟨hleft.scopes, congrArg (· - 1) hleft.callDepth⟩, halike⟩

theorem endingCalls {c : Eval α} {d : Eval β} (h : Parallel R P c d) :
    Parallel R P (Eval.endingCalls c) (Eval.endingCalls d) := by
  intro m m' hm
  obtain ⟨R', hgrows, hleft, halike⟩ := h m m' hm
  exact ⟨R', hgrows, ⟨hleft.scopes, rfl⟩, halike⟩

/-- The two scopes opened for the call are partners in the body. -/
theorem call (limit : Int) (hst : R s t) {b b' : Bindings} (hb : b.Corresponds R b')
    {body body' : ScopeId → Eval Value}
    (hbody : ∀ {R' u v}, R' u v → Parallel R' Value.Corresponds (body u) (body' v)) :
    Parallel R Value.Corresponds (Eval.call limit s b body) (Eval.call limit t b' body') := by
  rintro ⟨scopes, calls⟩ ⟨scopes', calls'⟩ hm
  obtain rfl : calls = calls' := hm.callDepth
  rw [Eval.call_apply, Eval.call_apply]
  split
  · exact ⟨R, .refl R, hm, .fault _⟩
  · let fresh := R.add scopes.size scopes'.size
    have hopened : Machine.Similar fresh ⟨scopes.enclose s b, calls⟩
        ⟨scopes'.enclose t b', calls⟩ := ⟨hm.scopes.enclose hst hb, rfl⟩
    have hinside : Parallel fresh Value.Corresponds (body scopes.size) (body' scopes'.size) :=
      hbody (.inr ⟨rfl, rfl⟩)
    obtain ⟨R', hgrows, hleft⟩ :=
      (hinside.withinCall.bind fun _ hvw => Parallel.pure hvw.unwrap) _ _ hopened
    exact ⟨R', (R.grows_add _ _).trans hgrows, hleft⟩

end Parallel

/-! ### Evaluations side by side -/

/-- An expression is evaluated in parallel wherever two scopes go together. -/
structure ParallelEval (eval : ScopeId → Expr → Eval Value) : Prop where
  expression {R : Pairing} {s t : ScopeId} (e : Expr) : R s t →
    Parallel R Value.Corresponds (eval s e) (eval t e)

namespace ParallelEval

variable {eval : ScopeId → Expr → Eval Value}

mutual
theorem statement (heval : ParallelEval eval) {R : Pairing} {s t : ScopeId} (hst : R s t) :
    ∀ stmt : Stmt, Parallel R Value.Corresponds (Eval.statement eval s stmt)
      (Eval.statement eval t stmt)
  | .empty => .pure .null
  | .define x e => (heval.expression e hst).carry fun hgrows hvw =>
      (Parallel.define (hgrows _ _ hst) x hvw).bind fun _ _ => .pure .null
  | .ret e => (heval.expression e hst).carry fun _ hvw => .pure (.returned hvw)
  | .expr e => heval.expression e hst
  | .block body => statements heval hst body .null
termination_by structural stmt => stmt

theorem statements (heval : ParallelEval eval) {R : Pairing} {s t : ScopeId} (hst : R s t) :
    ∀ (body : List Stmt) {v w : Value}, v.Corresponds R w →
      Parallel R Value.Corresponds (Eval.statements eval s body v) (Eval.statements eval t body w)
  | [], _, _, hvw => .pure hvw
  | stmt :: rest, _, _, _ => (statement heval hst stmt).carry fun hgrows hvw =>
      statements heval (hgrows _ _ hst) rest hvw
termination_by structural body => body
end

variable (heval : ParallelEval eval) {R : Pairing} {s t : ScopeId}

include heval

theorem block (hst : R s t) (body : Block) :
    Parallel R Value.Corresponds (Eval.block eval s body) (Eval.block eval t body) :=
  heval.statements hst body .null

theorem withArguments (hst : R s t) (es : List Expr) {next next' : List Value → Eval Value}
    (hnext : ∀ {R' vs ws}, R.Grows R' → List.Forall₂ (Value.Corresponds R') vs ws →
      Parallel R' Value.Corresponds (next vs) (next' ws)) :
    Parallel R Value.Corresponds (Eval.withArguments eval s es next)
      (Eval.withArguments eval t es next') := by
  induction es generalizing R next next' with
  | nil => exact hnext (.refl R) .nil
  | cons e es ih =>
    refine (heval.expression e hst).carry fun hgrows hvw => ?_
    refine ih (hgrows _ _ hst) fun hgrows' hvs => ?_
    exact hnext (hgrows.trans hgrows') (.cons (hvw.mono hgrows') hvs)

theorem apply (limit : Int) {f f' : Value} (hf : f.Corresponds R f') {args args' : List Value}
    (hargs : List.Forall₂ (Value.Corresponds R) args args') :
    Parallel R Value.Corresponds (Eval.apply eval limit f args)
      (Eval.apply eval limit f' args') := by
  cases hf with
  | int | bool | null | returned => exact .throw _
  | fn params body hst =>
    rw [Eval.apply_fn, Eval.apply_fn, hargs.length_eq]
    split
    · exact .throw _
    · exact .call limit hst (.parameters params hargs) fun huv => heval.block huv body

theorem choose (hst : R s t) {v w : Value} (hvw : v.Corresponds R w) (body : Block)
    (other : Option Block) :
    Parallel R Value.Corresponds (Eval.choose eval s v body other)
      (Eval.choose eval t w body other) := by
  have htruth : Parallel R (fun _ => Eq) (Eval.ofResult v.truth) (Eval.ofResult w.truth) :=
    .ofResult (.truth hvw)
  refine htruth.bind fun {R' b b'} hgrows hb => ?_
  subst hb
  cases b with
  | true => exact heval.block (hgrows _ _ hst) body
  | false =>
    cases other with
    | some other => exact heval.block (hgrows _ _ hst) other
    | none => exact .pure .null

theorem step (limit : Int) (hst : R s t) (e : Expr) :
    Parallel R Value.Corresponds (Eval.step eval limit s e) (Eval.step eval limit t e) := by
  cases e with
  | empty => exact .pure .null
  | int n => exact .pure (.int n)
  | bool b => exact .pure (.bool b)
  | fn params body => exact .pure (.fn params body hst)
  | ident x => exact .read hst x
  | unary op e =>
    exact (heval.expression e hst).carry fun _ hvw => .ofResult (.unary op hvw)
  | binary l op r =>
    refine (heval.expression l hst).carry fun hgrows hv => ?_
    refine (heval.expression r (hgrows _ _ hst)).carry fun hgrows' hw => .ofResult ?_
    rw [Alike.binary op (hv.mono hgrows') hw]
    exact .ofScalar fun _ => scalar_binary
  | cond test body other =>
    exact (heval.expression test hst).carry fun hgrows hvw =>
      heval.choose (hgrows _ _ hst) hvw body other
  | call callee args =>
    refine (heval.expression callee hst).carry fun hgrows hf => ?_
    refine heval.withArguments (hgrows _ _ hst) args fun hgrows' hargs => ?_
    exact heval.apply limit (hf.mono hgrows') hargs

end ParallelEval

theorem parallel_expression (limit : Int) (allowance : Nat) :
    ParallelEval (Eval.expression limit allowance) := by
  induction allowance with
  | zero => exact ⟨fun _ _ => .throw _⟩
  | succ allowance ih => exact ⟨fun e hst => ih.step limit hst e⟩

theorem parallel_program (limit : Int) (allowance : Nat) {R : Pairing} {s t : ScopeId}
    (hst : R s t) (p : Program) :
    Parallel R Value.Corresponds (Eval.program limit allowance s p)
      (Eval.program limit allowance t p) :=
  ((parallel_expression limit allowance).block hst p).endingCalls.bind fun _ hvw =>
    .pure hvw.unwrap

/-! ### Calls -/

/-- One of the values holds the scope. -/
def heldBy (vs : List Value) (s : ScopeId) : Prop := ∃ v ∈ vs, v.scope? = some s

/-- The call of a function value with values as its arguments. -/
abbrev Eval.callOf (limit : Int) (allowance : Nat) (f : Value) (args : List Value) : Eval Value :=
  Eval.apply (Eval.expression limit allowance) limit f args

/-- The pairing goes between the scopes that can be reached from `vs` and those that can be
    reached from `ws`, one by one, and by it these scopes look the same and the values
    correspond. -/
structure Isomorphic (R : Pairing) (scopes scopes' : Scopes) (vs ws : List Value) : Prop extends
    Scopes.Similar R scopes scopes' where
  reached (s : ScopeId) : Reachable scopes (heldBy vs) s ↔ ∃ t, R s t
  reached' (t : ScopeId) : Reachable scopes' (heldBy ws) t ↔ ∃ s, R s t
  values : List.Forall₂ (Value.Corresponds R) vs ws

/-- Every scope that can be reached from the values exists. -/
def Opened (scopes : Scopes) (vs : List Value) : Prop :=
  ∀ s, Reachable scopes (heldBy vs) s → s < scopes.size

section Calls

variable {limit : Int} {f f' : Value} {args args' : List Value} {m m' : Machine}

theorem calls_alike (limit : Int) {R : Pairing} (allowance : Nat) (hm : m.Similar R m')
    (hf : f.Corresponds R f') (hargs : List.Forall₂ (Value.Corresponds R) args args') :
    ∃ R', R.Grows R' ∧
      (Eval.callOf limit allowance f args m).2.Similar R'
        (Eval.callOf limit allowance f' args' m').2 ∧
      Alike (Value.Corresponds R') (Eval.callOf limit allowance f args m).1
        (Eval.callOf limit allowance f' args' m').1 :=
  (parallel_expression limit allowance).apply limit hf hargs m m' hm

/-- A value corresponds to itself if the scope it holds goes with itself. -/
theorem Value.Corresponds.refl {R : Pairing} {v : Value} (h : ∀ s, v.scope? = some s → R s s) :
    v.Corresponds R v := by
  induction v with
  | int n => exact .int n
  | bool b => exact .bool b
  | null => exact .null
  | returned v ih => exact .returned (ih h)
  | fn params body s => exact .fn params body (h s rfl)

/-- Machines that agree in all scopes that can be reached look the same from there. -/
theorem similar_of_agree {vs : List Value} (hopened : Opened m.scopes vs)
    (hcalls : m.callDepth = m'.callDepth)
    (hagree : ∀ s, Reachable m.scopes (heldBy vs) s → m'.scopes[s]? = m.scopes[s]?) :
    m.Similar (fun s t => s = t ∧ Reachable m.scopes (heldBy vs) s) m' := by
  refine ⟨⟨?_, ?_, ?_, ?_⟩, hcalls⟩
  · rintro s _ ⟨rfl, hs⟩
    have hsize := hopened s hs
    have hscope := hagree s hs
    rw [Array.getElem?_eq_getElem hsize] at hscope
    exact ⟨hsize, (Array.getElem?_eq_some_iff.mp hscope).1⟩
  · rintro s _ s' _ ⟨rfl, -⟩ ⟨rfl, -⟩
    exact Iff.rfl
  · rintro s _ ⟨rfl, hs⟩
    rw [Scopes.chain, Scopes.chain, hagree s hs]
    exact List.forall₂_same.mpr fun t ht => ⟨rfl, hs.around ht⟩
  · rintro s _ ⟨rfl, hs⟩ x
    have hsame : m'.scopes.bindings s = m.scopes.bindings s := by
      rw [Scopes.bindings, Scopes.bindings, hagree s hs]
    rw [hsame]
    cases hv : (m.scopes.bindings s).lookup x with
    | none => exact .none
    | some v => exact .some (.refl fun t ht => ⟨rfl, hs.bound hv ht⟩)

theorem calls_agree (allowance : Nat) (hopened : Opened m.scopes (f :: args))
    (hcalls : m.callDepth = m'.callDepth)
    (hagree : ∀ s, Reachable m.scopes (heldBy (f :: args)) s → m'.scopes[s]? = m.scopes[s]?) :
    Alike (fun v w => v.same w = true) (Eval.callOf limit allowance f args m).1
      (Eval.callOf limit allowance f args m').1 := by
  have hheld : ∀ v ∈ f :: args, Value.Corresponds
      (fun s t => s = t ∧ Reachable m.scopes (heldBy (f :: args)) s) v v := fun v hv =>
    .refl fun s hs => ⟨rfl, .start ⟨v, hv, hs⟩⟩
  obtain ⟨hf, hargs⟩ := List.forall_mem_cons.mp hheld
  obtain ⟨R', -, -, halike⟩ := calls_alike limit allowance
    (similar_of_agree hopened hcalls hagree) hf (List.forall₂_same.mpr hargs)
  exact halike.mono fun _ _ => Value.Corresponds.same

end Calls

/-- **Calls are lexically scoped and pure.**

    If a pairing matches the scopes that can be reached from one function and its arguments with
    those that can be reached from another and its arguments, on machines with the same calls
    under way, then the two calls come to values that correspond or to errors that read the
    same; unless one of them has less allowance than the other and uses it up.

    So nothing but what can be reached from a function and its arguments bears on a call.  And
    as a call changes nothing that was there before it, it can be made again and comes to the
    same. -/
theorem calls_pure (limit : Int) (f : Value) (args : List Value) (m : Machine) :
    (∀ (R : Pairing) (f' : Value) (args' : List Value) (m' : Machine) (allowance allowance' : Nat),
      Isomorphic R m.scopes m'.scopes (f :: args) (f' :: args') → m.callDepth = m'.callDepth →
      (∃ R', R.Grows R' ∧
        (Eval.callOf limit allowance f args m).2.Similar R'
          (Eval.callOf limit allowance' f' args' m').2 ∧
        Alike (Value.Corresponds R') (Eval.callOf limit allowance f args m).1
          (Eval.callOf limit allowance' f' args' m').1) ∨
      UsedUp allowance allowance' (Eval.callOf limit allowance f args m).1
        (Eval.callOf limit allowance' f' args' m').1) ∧
    (∀ (m' : Machine) (allowance : Nat), Opened m.scopes (f :: args) →
      m.callDepth = m'.callDepth →
      (∀ s, Reachable m.scopes (heldBy (f :: args)) s → m'.scopes[s]? = m.scopes[s]?) →
      Alike (fun v w => v.same w = true) (Eval.callOf limit allowance f args m).1
        (Eval.callOf limit allowance f args m').1) ∧
    (∀ allowance : Nat, Opened m.scopes (f :: args) →
      Alike (fun v w => v.same w = true) (Eval.callOf limit allowance f args m).1
        (Eval.callOf limit allowance f args (Eval.callOf limit allowance f args m).2).1) := by
  refine ⟨?_, ?_, ?_⟩
  · intro R f' args' m' allowance allowance' hiso hcalls
    obtain ⟨hf, hargs⟩ := List.forall₂_cons.mp hiso.values
    have halike := calls_alike limit allowance ⟨hiso.toSimilar, hcalls⟩ hf hargs
    rcases apply_allowance limit allowance allowance' f' args' m' with
      hsame | ⟨hless, hdeep⟩ | hless
    · have hcall : Eval.callOf limit allowance f' args' m' =
          Eval.callOf limit allowance' f' args' m' := hsame
      rw [← hcall]
      exact .inl halike
    -- With the same allowance, both calls give up or neither does.
    · obtain ⟨R', -, -, hresults⟩ := halike
      exact .inr (.inl ⟨hless, hresults.nestedTooDeep hdeep⟩)
    · exact .inr (.inr hless)
  · intro m' allowance
    exact calls_agree allowance
  · intro allowance hopened
    have hextends := extends_apply (frames_expression limit allowance) limit f args m
    refine calls_agree allowance hopened (steady_apply limit allowance f args m).symm ?_
    intro s hs
    exact hextends.scope s (hopened s hs)

/-- A scope that nothing is around, and where no function is bound, reaches itself alone. -/
theorem reachable_alone {scopes : Scopes} {vs : List Value} {s : ScopeId}
    (hheld : heldBy vs s) (honly : ∀ v ∈ vs, ∀ t, v.scope? = some t → t = s)
    (hchain : scopes.chain s = [s]) (hvalues : (scopes.bindings s).All fun v => v.scope? = none)
    (t : ScopeId) : Reachable scopes (heldBy vs) t ↔ t = s := by
  constructor
  · intro ht
    induction ht with
    | start hstart =>
      obtain ⟨v, hv, ht⟩ := hstart
      exact honly v hv _ ht
    | around _ hmem ih =>
      rw [ih, hchain] at hmem
      exact List.mem_singleton.mp hmem
    | bound _ hlookup ht ih =>
      rw [ih] at hlookup
      rw [hvalues _ _ hlookup] at ht
      cases ht
  · rintro rfl
    exact .start hheld

/-- Scopes that reach themselves alone are matched with one another if what is bound there
    corresponds. -/
theorem isomorphic_alone {scopes scopes' : Scopes} {vs ws : List Value} {s t : ScopeId}
    (hs : s < scopes.size) (ht : t < scopes'.size)
    (hreached : ∀ s', Reachable scopes (heldBy vs) s' ↔ s' = s)
    (hreached' : ∀ t', Reachable scopes' (heldBy ws) t' ↔ t' = t)
    (hchain : scopes.chain s = [s]) (hchain' : scopes'.chain t = [t])
    (hbindings : Bindings.Corresponds (fun s' t' => s' = s ∧ t' = t) (scopes.bindings s)
      (scopes'.bindings t))
    (hvalues : List.Forall₂ (Value.Corresponds fun s' t' => s' = s ∧ t' = t) vs ws) :
    Isomorphic (fun s' t' => s' = s ∧ t' = t) scopes scopes' vs ws := by
  refine ⟨⟨?_, ?_, ?_, ?_⟩, fun s' => ?_, fun t' => ?_, hvalues⟩
  · rintro _ _ ⟨rfl, rfl⟩
    exact ⟨hs, ht⟩
  · rintro _ _ _ _ ⟨rfl, rfl⟩ ⟨rfl, rfl⟩
    exact iff_of_true rfl rfl
  · rintro _ _ ⟨rfl, rfl⟩
    rw [hchain, hchain']
    exact .cons ⟨rfl, rfl⟩ .nil
  · rintro _ _ ⟨rfl, rfl⟩
    exact hbindings
  · rw [hreached]
    exact ⟨fun hs => ⟨t, hs, rfl⟩, fun ⟨_, hs, _⟩ => hs⟩
  · rw [hreached']
    exact ⟨fun ht => ⟨s, rfl, ht⟩, fun ⟨_, _, ht⟩ => ht⟩

/-- Two functions read `x` in scopes with different places, and beside the second there is a scope
    that the first machine does not have.  What is bound there makes no difference to a call of
    the second, nor does it make one that it is called again. -/
theorem calls_pure_relocated :
    (∃ R, Isomorphic R #[⟨[("x", .int 1)], []⟩]
        #[⟨[("x", .int 5)], []⟩, ⟨[("x", .int 1)], []⟩]
        [.fn ["y"] [.expr (.binary (.ident "x") "+" (.ident "y"))] 0, .int 2]
        [.fn ["y"] [.expr (.binary (.ident "x") "+" (.ident "y"))] 1, .int 2] ∧
      (Eval.callOf 400 9 (.fn ["y"] [.expr (.binary (.ident "x") "+" (.ident "y"))] 1) [.int 2]
        ⟨#[⟨[("x", .int 5)], []⟩, ⟨[("x", .int 1)], []⟩], 0⟩).1 = .ok (.int 3)) ∧
    ∃ (f : Value) (m m' : Machine), Opened m.scopes [f, .int 2] ∧ m.scopes ≠ m'.scopes ∧
      (Eval.callOf 400 9 f [.int 2] m).1 = .ok (.int 3) ∧
      Alike (fun v w => v.same w = true) (Eval.callOf 400 9 f [.int 2] m).1
        (Eval.callOf 400 9 f [.int 2] m').1 ∧
      Alike (fun v w => v.same w = true) (Eval.callOf 400 9 f [.int 2] m).1
        (Eval.callOf 400 9 f [.int 2] (Eval.callOf 400 9 f [.int 2] m).2).1 := by
  let scopes : Scopes := #[⟨[("x", .int 1)], []⟩]
  let scopes' : Scopes := #[⟨[("x", .int 5)], []⟩, ⟨[("x", .int 1)], []⟩]
  let f := fun s => Value.fn ["y"] [.expr (.binary (.ident "x") "+" (.ident "y"))] s
  have hempty : Bindings.Corresponds (fun s t => s = 0 ∧ t = 1) [] [] := fun _ => .none
  have hvalues : Bindings.All (fun v => v.scope? = none) [("x", .int 1)] := by
    intro x v hv
    rw [Bindings.lookup_cons] at hv
    split at hv <;> cases hv
    rfl
  have hreached : ∀ s, Reachable scopes (heldBy [f 0, .int 2]) s ↔ s = 0 :=
    reachable_alone ⟨f 0, List.mem_cons_self, rfl⟩ (by simp [f, Value.scope?]) rfl hvalues
  have hreached' : ∀ t, Reachable scopes' (heldBy [f 1, .int 2]) t ↔ t = 1 :=
    reachable_alone ⟨f 1, List.mem_cons_self, rfl⟩ (by simp [f, Value.scope?]) rfl hvalues
  have hiso := isomorphic_alone (by decide) (by decide) hreached hreached' rfl rfl
    (hempty.set "x" (.int 1)) (.cons (.fn ["y"] _ ⟨rfl, rfl⟩) (.cons (.int 2) .nil))
  refine ⟨⟨_, hiso, ?_⟩, f 1, ⟨scopes', 0⟩, ⟨#[⟨[], []⟩, ⟨[("x", .int 1)], []⟩], 0⟩, ?_⟩
  · obtain ⟨hpaired, -, -⟩ := calls_pure 400 (f 0) [.int 2] ⟨scopes, 0⟩
    have hfirst : (Eval.callOf 400 9 (f 0) [.int 2] ⟨scopes, 0⟩).1 = .ok (.int 3) := rfl
    rcases hpaired _ (f 1) [.int 2] ⟨scopes', 0⟩ 9 9 hiso rfl with
      ⟨R', -, -, halike⟩ | ⟨hless, -⟩ | ⟨hless, -⟩
    · rw [hfirst] at halike
      generalize (Eval.callOf 400 9 (f 1) [.int 2] ⟨scopes', 0⟩).1 = result at halike
      cases halike with
      | ok hvw =>
        cases hvw
        rfl
    · exact absurd hless (Nat.lt_irrefl _)
    · exact absurd hless (Nat.lt_irrefl _)
  · obtain ⟨-, hunreached, hagain⟩ := calls_pure 400 (f 1) [.int 2] ⟨scopes', 0⟩
    have hopened : Opened scopes' [f 1, .int 2] := by
      intro t ht
      rw [(hreached' t).mp ht]
      decide
    have hdiffer : scopes' ≠ #[⟨[], []⟩, ⟨[("x", .int 1)], []⟩] := by
      intro heq
      cases congrArg (Scopes.bindings · 0) heq
    refine ⟨hopened, hdiffer, rfl, hunreached _ 9 hopened rfl fun s hs => ?_, hagain 9 hopened⟩
    rw [(hreached' s).mp hs]
    rfl

end Treewalk
