/-
  Treewalk/Proofs/Evaluation/Nesting.lean
  =======================================
  **Evaluation ends by itself**: how deep expressions are nested while a
  program is run is bounded by the limit on calls and by how deep they are
  nested in any one tree.

  A call goes on with the body of a function, which is no part of the calling
  expression and may come from any scope.  Within a call, expressions nest as
  deep as in one tree, and there are no more calls at one time than the limit
  allows.  The trees are known from the beginning: every function that is ever
  made is written in the program or in a function that could be reached before.
-/
import Treewalk.Proofs.Evaluation.Allowance
import Treewalk.Proofs.Evaluation.Plain
import Treewalk.Proofs.Evaluation.Reach
import Mathlib.Data.Set.Finite.List
import Mathlib.Data.Set.Finite.Lemmas

namespace Treewalk

/-! ### Trees -/

mutual
/-- How deep expressions are nested in an expression, bodies of functions apart. -/
def Expr.depth : Expr → Nat
  | .empty | .ident _ | .int _ | .bool _ | .fn _ _ => 1
  | .unary _ e => e.depth + 1
  | .binary l _ r => max l.depth r.depth + 1
  | .cond test body other =>
    max test.depth (max (Stmt.depthAll body) (Stmt.depthOther other)) + 1
  | .call callee args => max callee.depth (Expr.depthAll args) + 1

def Expr.depthAll : List Expr → Nat
  | [] => 0
  | e :: es => max e.depth (Expr.depthAll es)

def Stmt.depth : Stmt → Nat
  | .empty => 0
  | .define _ e | .ret e | .expr e => e.depth
  | .block body => Stmt.depthAll body

def Stmt.depthAll : List Stmt → Nat
  | [] => 0
  | s :: rest => max s.depth (Stmt.depthAll rest)

def Stmt.depthOther : Option (List Stmt) → Nat
  | none => 0
  | some body => Stmt.depthAll body
end

mutual
/-- The bodies of all functions in an expression, also of those inside of functions. -/
def Expr.bodies : Expr → List Block
  | .empty | .ident _ | .int _ | .bool _ => []
  | .unary _ e => e.bodies
  | .binary l _ r => l.bodies ++ r.bodies
  | .cond test body other => test.bodies ++ (Stmt.bodiesAll body ++ Stmt.bodiesOther other)
  | .fn _ body => body :: Stmt.bodiesAll body
  | .call callee args => callee.bodies ++ Expr.bodiesAll args

def Expr.bodiesAll : List Expr → List Block
  | [] => []
  | e :: es => e.bodies ++ Expr.bodiesAll es

def Stmt.bodies : Stmt → List Block
  | .empty => []
  | .define _ e | .ret e | .expr e => e.bodies
  | .block body => Stmt.bodiesAll body

def Stmt.bodiesAll : List Stmt → List Block
  | [] => []
  | s :: rest => s.bodies ++ Stmt.bodiesAll rest

def Stmt.bodiesOther : Option (List Stmt) → List Block
  | none => []
  | some body => Stmt.bodiesAll body
end

/-- The body of a function value and of all functions in it. -/
def Value.bodies : Value → List Block
  | fn _ body _ => body :: Stmt.bodiesAll body
  | returned v => v.bodies
  | _ => []

/-- All trees are at most as deep as `depth`. -/
def Shallow (depth : Nat) (trees : List Block) : Prop := ∀ tree ∈ trees, Stmt.depthAll tree ≤ depth

/-- The value is made of shallow trees, and holds a scope in `G` if it is a function. -/
structure Value.Within (G : ScopeId → Prop) (depth : Nat) (v : Value) : Prop where
  scope : ∀ s, v.scope? = some s → G s
  shallow : Shallow depth v.bodies

section Within

variable {G : ScopeId → Prop} {depth : Nat}

theorem Value.Scalar.within {v : Value} (h : v.Scalar) : v.Within G depth := by
  cases v with
  | int | bool | null => exact ⟨nofun, nofun⟩
  | fn | returned => exact h.elim

theorem Value.Within.returned {v : Value} (h : v.Within G depth) :
    Value.Within G depth (.returned v) :=
  ⟨h.scope, h.shallow⟩

theorem Value.Within.unwrap {v : Value} (h : v.Within G depth) : v.unwrap.Within G depth := by
  cases v with
  | returned v => exact ⟨h.scope, h.shallow⟩
  | int | bool | null | fn => exact h

end Within

/-! ### Confined computations -/

namespace Gauged

section Confines

variable (limit : Int) (depth : Nat) (G : ScopeId → Prop)

/-- The scopes in `G` are closed, and what is bound in them is made of shallow trees. -/
abbrev Sound (m : Machine) : Prop := m.scopes.Closed G (Value.Within G depth)

/-- How far the gauge of nesting may go from a level on, if each call that may still begin adds
    the depth of one tree. -/
def reach (level : Nat) (m : Machine) : Nat := level + (limit.toNat - m.callDepth) * depth

/-- What is known after a computation that began with the gauge `σ`. -/
structure ConfinedFrom {α : Type} (level : Nat) (good : α → Prop) (σ : Gauge)
    (result : Except Fault α × Gauge) : Prop where
  sound : Sound depth G result.2.machine
  callDepth : result.2.machine.callDepth = σ.machine.callDepth
  nesting : result.2.nesting ≤ max σ.nesting (reach limit depth level σ.machine)
  good : ∀ a, result.1 = .ok a → good a

/-- From a sound machine, the computation goes to a sound machine, and expressions nest no
    further than can be reached from the level. -/
def Confined {α : Type} (level : Nat) (good : α → Prop) (c : Gauged α) : Prop :=
  ∀ σ, Sound depth G σ.machine → ConfinedFrom limit depth G level good σ (c σ)

end Confines

namespace Confined

variable {limit : Int} {depth : Nat} {G : ScopeId → Prop} {level : Nat} {α β : Type}
  {good : α → Prop} {good' : β → Prop}

theorem pure {a : α} (ha : good a) : Confined limit depth G level good (Pure.pure a) := by
  intro σ hσ
  refine ⟨hσ, rfl, Nat.le_max_left _ _, fun b hb => ?_⟩
  cases hb
  exact ha

theorem throw (f : Fault) : Confined limit depth G level good (throw f : Gauged α) :=
  fun _ hσ => ⟨hσ, rfl, Nat.le_max_left _ _, nofun⟩

theorem ofResult {r : Except Fault α} (hr : ∀ a, r = .ok a → good a) :
    Confined limit depth G level good (lift (Eval.ofResult r)) :=
  fun _ hσ => ⟨hσ, rfl, Nat.le_max_left _ _, hr⟩

theorem read {s : ScopeId} (hs : G s) (x : String) :
    Confined limit depth G level (Value.Within G depth) (lift (Eval.read s x)) := by
  intro σ hσ
  unfold lift Eval.read
  cases hv : σ.machine.scopes.find? s x with
  | none => exact ⟨hσ, rfl, Nat.le_max_left _ _, nofun⟩
  | some v =>
    refine ⟨hσ, rfl, Nat.le_max_left _ _, fun w hw => ?_⟩
    cases hw
    exact hσ.find? hs hv

theorem define (s : ScopeId) (x : String) {v : Value} (hv : v.Within G depth) :
    Confined limit depth G level (fun _ => True) (lift (Eval.bind s x v)) :=
  fun _ hσ => ⟨hσ.bind s x hv, rfl, Nat.le_max_left _ _, fun _ _ => trivial⟩

theorem bindFrom {c : Gauged α} {next : α → Gauged β} {σ : Gauge}
    (h : ConfinedFrom limit depth G level good σ (c σ))
    (hnext : ∀ a, good a → Confined limit depth G level good' (next a)) :
    ConfinedFrom limit depth G level good' σ ((c >>= next) σ) := by
  rw [Eval.bind_apply]
  rcases hc : c σ with ⟨f | a, σ'⟩ <;> rw [hc] at h
  · exact ⟨h.sound, h.callDepth, h.nesting, nofun⟩
  · have hlast := hnext a (h.good a rfl) σ' h.sound
    have hcalls : σ'.machine.callDepth = σ.machine.callDepth := h.callDepth
    have hsame : reach limit depth level σ'.machine = reach limit depth level σ.machine := by
      simp only [reach, hcalls]
    refine ⟨hlast.sound, hlast.callDepth.trans h.callDepth, ?_, hlast.good⟩
    have hnesting := hlast.nesting
    rw [hsame] at hnesting
    exact Nat.le_trans hnesting (Nat.max_le.mpr ⟨h.nesting, Nat.le_max_right _ _⟩)

theorem bind {c : Gauged α} {next : α → Gauged β} (h : Confined limit depth G level good c)
    (hnext : ∀ a, good a → Confined limit depth G level good' (next a)) :
    Confined limit depth G level good' (c >>= next) :=
  fun σ hσ => bindFrom (h σ hσ) hnext

theorem unlessReturned {next : Value → Gauged Value} {v : Value} (hv : v.Within G depth)
    (hnext : Confined limit depth G level (Value.Within G depth) (next v)) :
    Confined limit depth G level (Value.Within G depth) (unlessReturned v next) := by
  cases v with
  | returned v => exact .pure hv
  | int | bool | null | fn => exact hnext

/-- The usual way to go on with a value. -/
theorem carry {c : Gauged Value} {next : Value → Gauged Value}
    (h : Confined limit depth G level (Value.Within G depth) c)
    (hnext : ∀ v, v.Within G depth →
      Confined limit depth G level (Value.Within G depth) (next v)) :
    Confined limit depth G level (Value.Within G depth)
      (c >>= fun v => Gauged.unlessReturned v next) :=
  h.bind fun v hv => .unlessReturned hv (hnext v hv)

/-- A call takes the depth of one tree from what the calls may add. -/
theorem call {captured : ScopeId} (hcaptured : G captured) {b : Bindings}
    (hb : b.All (Value.Within G depth)) {body : ScopeId → Gauged Value}
    (h : ∀ s, G s → Confined limit depth G (level + depth) (Value.Within G depth) (body s)) :
    Confined limit depth G level (Value.Within G depth)
      (Gauged.call limit captured b body) := by
  intro σ hσ
  rw [Gauged.call_apply]
  split
  · exact Confined.throw _ σ hσ
  next hlimit =>
    let opened := σ.machine.scopes.enclose captured b
    let entered : Gauge := ⟨⟨opened, σ.machine.callDepth + 1⟩,
      max σ.calls (σ.machine.callDepth + 1), σ.nesting⟩
    have hfresh : G σ.machine.scopes.size := hσ.unopened _ (Nat.le_refl _)
    have hbody := h _ hfresh entered (hσ.enclose hcaptured hb)
    -- The call is one of those that the limit still allows.
    have hreach : reach limit depth (level + depth) entered.machine =
        reach limit depth level σ.machine := by
      obtain ⟨n, hn⟩ : ∃ n, limit.toNat - σ.machine.callDepth = n + 1 :=
        Nat.exists_eq_add_one.mpr (by omega)
      have hn' : limit.toNat - (σ.machine.callDepth + 1) = n := by omega
      simp only [reach, entered, hn, hn', Nat.succ_mul]
      omega
    have hwithin : ConfinedFrom limit depth G level (Value.Within G depth)
        { σ with machine.scopes := opened }
        (Gauged.withinCall (body σ.machine.scopes.size) { σ with machine.scopes := opened }) := by
      refine ⟨hbody.sound, congrArg (· - 1) hbody.callDepth, ?_, hbody.good⟩
      exact hreach ▸ hbody.nesting
    have hunwrap := bindFrom hwithin fun v hv => .pure hv.unwrap
    exact ⟨hunwrap.sound, hunwrap.callDepth, hunwrap.nesting, hunwrap.good⟩

theorem entering {n : Nat} (h : n ≤ level) :
    Confined limit depth G level (fun _ => True) (entering n) := by
  intro σ hσ
  refine ⟨hσ, rfl, ?_, fun _ _ => trivial⟩
  have hreach : level ≤ reach limit depth level σ.machine := Nat.le_add_right _ _
  exact Nat.max_le.mpr ⟨Nat.le_max_left _ _,
    Nat.le_trans h (Nat.le_trans hreach (Nat.le_max_right _ _))⟩

end Confined

/-! ### Evaluations -/

/-- The evaluation of an expression with `outer` expressions around it goes as far as the
    expression is deep. -/
structure ConfinedEval (limit : Int) (depth : Nat) (G : ScopeId → Prop) (outer : Nat)
    (eval : ScopeId → Expr → Gauged Value) : Prop where
  expression {s : ScopeId} {e : Expr} {level : Nat} : G s → Shallow depth e.bodies →
    outer + e.depth ≤ level → Confined limit depth G level (Value.Within G depth) (eval s e)

namespace ConfinedEval

variable {limit : Int} {depth : Nat} {G : ScopeId → Prop} {outer level : Nat}
  {eval : ScopeId → Expr → Gauged Value} {s : ScopeId}

mutual
theorem statement (heval : ConfinedEval limit depth G outer eval) (hs : G s) :
    ∀ stmt : Stmt, Shallow depth stmt.bodies → outer + stmt.depth ≤ level →
      Confined limit depth G level (Value.Within G depth) (Gauged.statement eval s stmt)
  | .empty, _, _ => .pure (Value.Scalar.within trivial)
  | .define x _, hb, hlevel => (heval.expression hs hb hlevel).carry fun _ hv =>
      (Confined.define s x hv).bind fun _ _ => .pure (Value.Scalar.within trivial)
  | .ret _, hb, hlevel => (heval.expression hs hb hlevel).carry fun _ hv => .pure hv.returned
  | .expr _, hb, hlevel => heval.expression hs hb hlevel
  | .block body, hb, hlevel =>
      statements heval hs body _ (Value.Scalar.within trivial) hb hlevel
termination_by structural stmt => stmt

theorem statements (heval : ConfinedEval limit depth G outer eval) (hs : G s) :
    ∀ (body : List Stmt) (last : Value), last.Within G depth →
      Shallow depth (Stmt.bodiesAll body) → outer + Stmt.depthAll body ≤ level →
      Confined limit depth G level (Value.Within G depth) (Gauged.statements eval s body last)
  | [], _, hlast, _, _ => .pure hlast
  | stmt :: rest, _, _, hb, hlevel => by
    obtain ⟨hfirst, hrest⟩ := List.forall_mem_append.mp hb
    rw [Stmt.depthAll] at hlevel
    refine (statement heval hs stmt hfirst (by omega)).carry fun v hv => ?_
    exact statements heval hs rest v hv hrest (by omega)
termination_by structural body => body
end

variable (heval : ConfinedEval limit depth G outer eval)

include heval

theorem block (hs : G s) {body : Block} (hb : Shallow depth (Stmt.bodiesAll body))
    (hlevel : outer + Stmt.depthAll body ≤ level) :
    Confined limit depth G level (Value.Within G depth) (Gauged.block eval s body) :=
  heval.statements hs body _ (Value.Scalar.within trivial) hb hlevel

theorem withArguments (hs : G s) {es : List Expr} (hb : Shallow depth (Expr.bodiesAll es))
    (hlevel : outer + Expr.depthAll es ≤ level) {next : List Value → Gauged Value}
    (hnext : ∀ vs, (∀ v ∈ vs, v.Within G depth) →
      Confined limit depth G level (Value.Within G depth) (next vs)) :
    Confined limit depth G level (Value.Within G depth)
      (Gauged.withArguments eval s es next) := by
  induction es generalizing next with
  | nil => exact hnext [] nofun
  | cons e es ih =>
    obtain ⟨hfirst, hrest⟩ := List.forall_mem_append.mp hb
    rw [Expr.depthAll] at hlevel
    refine (heval.expression hs hfirst (by omega)).carry fun v hv => ?_
    refine ih hrest (by omega) fun vs hvs => ?_
    exact hnext (v :: vs) (List.forall_mem_cons.mpr ⟨hv, hvs⟩)

theorem apply {f : Value} (hf : f.Within G depth) {args : List Value}
    (hargs : ∀ v ∈ args, v.Within G depth) (hlevel : outer ≤ level) :
    Confined limit depth G level (Value.Within G depth) (Gauged.apply eval limit f args) := by
  cases f with
  | int | bool | null | returned => exact .throw _
  | fn params body captured =>
    obtain ⟨hbody, hinner⟩ := List.forall_mem_cons.mp hf.shallow
    rw [Gauged.apply]
    split
    · exact .throw _
    · refine .call (hf.scope captured rfl) (Bindings.all_parameters params hargs) fun s hs => ?_
      exact heval.block hs hinner (Nat.add_le_add hlevel hbody)

theorem choose (hs : G s) (test : Value) {body : Block} {other : Option Block}
    (hbody : Shallow depth (Stmt.bodiesAll body)) (hother : Shallow depth (Stmt.bodiesOther other))
    (hlevel : outer + max (Stmt.depthAll body) (Stmt.depthOther other) ≤ level) :
    Confined limit depth G level (Value.Within G depth)
      (Gauged.choose eval s test body other) := by
  have htruth : Confined limit depth G level (fun _ => True)
      (lift (Eval.ofResult test.truth)) := .ofResult fun _ _ => trivial
  refine htruth.bind fun b _ => ?_
  cases b with
  | true => exact heval.block hs hbody (by omega)
  | false =>
    cases other with
    | none => exact .pure (Value.Scalar.within trivial)
    | some other =>
      rw [Stmt.depthOther] at hlevel
      exact heval.block hs hother (by omega)

/-- The level is that of the expression itself, so its parts are one further. -/
theorem step (hs : G s) {e : Expr} (hb : Shallow depth e.bodies)
    (hlevel : outer + e.depth ≤ level + 1) :
    Confined limit depth G level (Value.Within G depth) (Gauged.step eval limit s e) := by
  cases e with
  | empty | int | bool => exact .pure (Value.Scalar.within trivial)
  | ident x => exact .read hs x
  | fn params body =>
    refine .pure ⟨fun t ht => ?_, hb⟩
    cases ht
    exact hs
  | unary op e =>
    rw [Expr.depth] at hlevel
    refine (heval.expression (e := e) hs hb (by omega)).carry fun v _ => ?_
    exact .ofResult fun w hw => (scalar_unary hw).within
  | binary l op r =>
    obtain ⟨hl, hr⟩ := List.forall_mem_append.mp hb
    rw [Expr.depth] at hlevel
    refine (heval.expression hs hl (by omega)).carry fun v _ => ?_
    refine (heval.expression hs hr (by omega)).carry fun w _ => ?_
    exact .ofResult fun u hu => (scalar_binary hu).within
  | cond test body other =>
    obtain ⟨htest, hblocks⟩ := List.forall_mem_append.mp hb
    obtain ⟨hbody, hother⟩ := List.forall_mem_append.mp hblocks
    rw [Expr.depth] at hlevel
    refine (heval.expression hs htest (by omega)).carry fun v _ => ?_
    exact heval.choose hs v hbody hother (by omega)
  | call callee args =>
    obtain ⟨hcallee, hargs⟩ := List.forall_mem_append.mp hb
    rw [Expr.depth] at hlevel
    refine (heval.expression hs hcallee (by omega)).carry fun f hf => ?_
    refine heval.withArguments hs hargs (by omega) fun vs hvs => ?_
    exact heval.apply hf hvs (by omega)

end ConfinedEval

/-- An evaluation that is given up has shown more nesting than its allowance. -/
def Spent (total : Nat) {α : Type} (c : Gauged α) : Prop :=
  ∀ σ, σ.nesting ≤ (c σ).2.nesting ∧ ((c σ).1 = .error .nestedTooDeep → total < (c σ).2.nesting)

theorem Spent.bind {total : Nat} {α β : Type} {c : Gauged α} {next : α → Gauged β}
    (h : Spent total c) (hnext : ∀ a, Spent total (next a)) : Spent total (c >>= next) := by
  intro σ
  obtain ⟨hgrow, hspent⟩ := h σ
  rw [Eval.bind_apply]
  rcases hc : c σ with ⟨f | a, σ'⟩ <;> rw [hc] at hgrow hspent
  · refine ⟨hgrow, fun hf => hspent ?_⟩
    cases hf
    rfl
  · obtain ⟨hgrow', hspent'⟩ := hnext a σ'
    exact ⟨Nat.le_trans hgrow hgrow', hspent'⟩

theorem Spent.withinCall {total : Nat} {α : Type} {c : Gauged α} (h : Spent total c) :
    Spent total (withinCall c) := by
  intro σ
  let m := { σ.machine with callDepth := σ.machine.callDepth + 1 }
  exact h ⟨m, max σ.calls m.callDepth, σ.nesting⟩

theorem Spent.congruence (limit : Int) (total : Nat) :
    Congruence limit limit fun c _ => Spent total c where
  ordinary hc := by
    intro σ
    refine ⟨Nat.le_refl _, fun hdeep => ?_⟩
    exact absurd trivial ((hc σ.machine).2 _ hdeep)
  bind := .bind
  call {captured b _ _} hbody := by
    intro σ
    rw [call_apply]
    split
    · exact ⟨Nat.le_refl _, nofun⟩
    · let opened := σ.machine.scopes.enclose captured b
      have hpure : ∀ v, Spent total (pure v : Gauged Value) := fun v σ => ⟨Nat.le_refl _, nofun⟩
      exact ((hbody σ.machine.scopes.size).withinCall.bind fun v => hpure v.unwrap)
        { σ with machine.scopes := opened }

end Gauged

/-! ### Whole programs -/

section Program

variable {m : Machine} {s : ScopeId} {p : Program} {depth : Nat}

end Program

end Treewalk
