/-
  Treewalk/Proofs/Evaluation/Frame.lean
  =====================================
  **Evaluation writes to one scope only**, the one it takes place in, and
  there only to names that are defined in the tree outside of functions.

  A call opens a scope of its own and evaluates its body there.  This scope is
  newer than all scopes there were, so what the body writes is invisible to
  them; the frame of a call is all of them.  All of this holds of every
  machine and for every result, since a fault undoes nothing.
-/
import Treewalk.Evaluation.Basic

namespace Treewalk

/-! ### Names that a tree defines -/

mutual
/-- The name is defined in the expression, outside of functions. -/
def Expr.Defines : Expr → String → Prop
  | .empty, _ | .ident _, _ | .int _, _ | .bool _, _ | .fn _ _, _ => False
  | .unary _ e, x => e.Defines x
  | .binary l _ r, x => l.Defines x ∨ r.Defines x
  | .cond test body other, x =>
    test.Defines x ∨ Stmt.AnyDefines body x ∨ Stmt.OtherDefines other x
  | .call callee args, x => callee.Defines x ∨ Expr.AnyDefines args x

def Expr.AnyDefines : List Expr → String → Prop
  | [], _ => False
  | e :: es, x => e.Defines x ∨ Expr.AnyDefines es x

/-- The name is defined by the statement or in it, outside of functions. -/
def Stmt.Defines : Stmt → String → Prop
  | .empty, _ => False
  | .define name value, x => x = name ∨ value.Defines x
  | .ret value, x => value.Defines x
  | .expr value, x => value.Defines x
  | .block body, x => Stmt.AnyDefines body x

def Stmt.AnyDefines : List Stmt → String → Prop
  | [], _ => False
  | s :: rest, x => s.Defines x ∨ Stmt.AnyDefines rest x

def Stmt.OtherDefines : Option (List Stmt) → String → Prop
  | none, _ => False
  | some body, x => Stmt.AnyDefines body x
end

/-! ### Frames -/

/-- All scopes of `m` are in `m'` as they were. -/
structure Extends (m m' : Machine) : Prop where
  size_le : m.scopes.size ≤ m'.scopes.size
  scope : ∀ t < m.scopes.size, m'.scopes[t]? = m.scopes[t]?

/-- From `m` to `m'`, at most the scope `s` was written to, and there only names in `P`. -/
structure Frame (s : ScopeId) (P : String → Prop) (m m' : Machine) : Prop where
  size_le : m.scopes.size ≤ m'.scopes.size
  other : ∀ t < m.scopes.size, t ≠ s → m'.scopes[t]? = m.scopes[t]?
  chain : ∀ t < m.scopes.size, m'.scopes.chain t = m.scopes.chain t
  /-- No name is taken away, and names keep their places. -/
  names : s < m.scopes.size → (m.scopes.bindings s).names <+: (m'.scopes.bindings s).names
  lookup : s < m.scopes.size → ∀ x, ¬P x →
    (m'.scopes.bindings s).lookup x = (m.scopes.bindings s).lookup x

theorem Extends.frame {m m' : Machine} (h : Extends m m') (s : ScopeId) (P : String → Prop) :
    Frame s P m m' := by
  refine ⟨h.size_le, fun t ht _ => h.scope t ht, ?_, ?_, ?_⟩
  · intro t ht
    simp only [Scopes.chain, h.scope t ht]
  · intro hs
    simp only [Scopes.bindings, h.scope s hs, List.prefix_refl]
  · intro hs x _
    simp only [Scopes.bindings, h.scope s hs]

namespace Frame

variable {s : ScopeId} {P Q : String → Prop} {m m' m'' : Machine}

theorem refl (s : ScopeId) (P : String → Prop) (m : Machine) : Frame s P m m :=
  Extends.frame ⟨Nat.le_refl _, fun _ _ => rfl⟩ s P

theorem trans (h : Frame s P m m') (h' : Frame s P m' m'') : Frame s P m m'' := by
  have hold : ∀ t < m.scopes.size, t < m'.scopes.size := fun t ht =>
    Nat.lt_of_lt_of_le ht h.size_le
  refine ⟨Nat.le_trans h.size_le h'.size_le, ?_, ?_, ?_, ?_⟩
  · intro t ht hne
    rw [h'.other t (hold t ht) hne, h.other t ht hne]
  · intro t ht
    rw [h'.chain t (hold t ht), h.chain t ht]
  · intro hs
    exact (h.names hs).trans (h'.names (hold s hs))
  · intro hs x hx
    rw [h'.lookup (hold s hs) x hx, h.lookup hs x hx]

theorem mono (h : Frame s P m m') (hPQ : ∀ x, P x → Q x) : Frame s Q m m' :=
  ⟨h.size_le, h.other, h.chain, h.names, fun hs x hx => h.lookup hs x fun hP => hx (hPQ x hP)⟩

theorem bind (m : Machine) (x : String) (v : Value) (hx : P x) :
    Frame s P m { m with scopes := m.scopes.bind s x v } := by
  refine ⟨?_, ?_, ?_, ?_, ?_⟩
  · exact Nat.le_of_eq (Scopes.size_bind _ _ _ _).symm
  · intro t _ hne
    rw [Scopes.getElem?_bind, if_neg (Ne.symm hne)]
  · intro t _
    exact Scopes.chain_bind _ _ _ _ _
  · intro hs
    rw [Scopes.bindings_bind, if_pos ⟨rfl, hs⟩, Bindings.names_set]
    split
    · exact List.prefix_refl _
    · exact List.prefix_append _ _
  · intro hs y hy
    have hne : y ≠ x := by
      rintro rfl
      exact hy hx
    rw [Scopes.bindings_bind, if_pos ⟨rfl, hs⟩, Bindings.lookup_set, if_neg hne]

end Frame

/-! ### Computations -/

/-- From every machine, and however it ends, the computation keeps to the frame. -/
def Frames {α : Type} (s : ScopeId) (P : String → Prop) (c : Eval α) : Prop :=
  ∀ m, Frame s P m (c m).2

namespace Frames

variable {α β : Type} {s : ScopeId} {P Q : String → Prop}

theorem mono {c : Eval α} (h : Frames s P c) (hPQ : ∀ x, P x → Q x) : Frames s Q c :=
  fun m => (h m).mono hPQ

theorem of_extends {c : Eval α} (h : ∀ m, Extends m (c m).2) : Frames s P c :=
  fun m => (h m).frame s P

theorem pure (a : α) : Frames s P (pure a) := Frame.refl s P

theorem throw (f : Fault) : Frames s P (throw f : Eval α) := Frame.refl s P

theorem ofResult (r : Except Fault α) : Frames s P (Eval.ofResult r) := Frame.refl s P

theorem read (t : ScopeId) (x : String) : Frames s P (Eval.read t x) := by
  intro m
  unfold Eval.read
  split <;> exact .refl s P m

theorem define (x : String) (v : Value) (hx : P x) : Frames s P (Eval.bind s x v) :=
  fun m => .bind m x v hx

theorem bind {c : Eval α} {next : α → Eval β} (h : Frames s P c)
    (hnext : ∀ a, Frames s P (next a)) : Frames s P (c >>= next) := by
  intro m
  have hfirst := h m
  rw [Eval.bind_apply]
  cases hc : c m with
  | mk result m' =>
    rw [hc] at hfirst
    cases result with
    | error f => exact hfirst
    | ok a => exact hfirst.trans (hnext a m')

theorem unlessReturned {v : Value} {next : Value → Eval Value}
    (hnext : ∀ v, Frames s P (next v)) : Frames s P (Eval.unlessReturned v next) := by
  unfold Eval.unlessReturned
  split
  · exact .pure _
  · exact hnext _

theorem withinCall {c : Eval α} (h : Frames s P c) : Frames s P (Eval.withinCall c) := by
  intro m
  obtain ⟨hsize, hother, hchain, hnames, hlookup⟩ := h { m with callDepth := m.callDepth + 1 }
  exact ⟨hsize, hother, hchain, hnames, hlookup⟩

theorem endingCalls {c : Eval α} (h : Frames s P c) : Frames s P (Eval.endingCalls c) := by
  intro m
  obtain ⟨hsize, hother, hchain, hnames, hlookup⟩ := h m
  exact ⟨hsize, hother, hchain, hnames, hlookup⟩

/-- What is written in a scope just opened is written to none of those that there were. -/
theorem enclose {c : ScopeId → Eval α} (h : ∀ t, ∃ P, Frames t P (c t)) (around : ScopeId)
    (b : Bindings) (m : Machine) : Extends m ((Eval.enclose around b >>= c) m).2 := by
  -- The place of the new scope is behind those of all others.
  obtain ⟨P, hframe⟩ := h m.scopes.size
  obtain ⟨hle, hother, -, -, -⟩ := hframe { m with scopes := m.scopes.enclose around b }
  simp only [Scopes.size_enclose] at hle hother
  rw [Eval.bind_apply]
  refine ⟨Nat.le_of_succ_le hle, fun t ht => ?_⟩
  exact (hother t (Nat.lt_succ_of_lt ht) (Nat.ne_of_lt ht)).trans
    (Scopes.getElem?_enclose _ _ _ _ ht)

end Frames

/-! ### Pieces of the evaluator -/

section Pieces

variable {eval : ScopeId → Expr → Eval Value} {P : String → Prop}

mutual
theorem frames_statement (heval : ∀ s e, Frames s e.Defines (eval s e)) (s : ScopeId) :
    ∀ stmt : Stmt, (∀ x, stmt.Defines x → P x) → Frames s P (Eval.statement eval s stmt)
  | .empty, _ => .pure _
  | .define x e, h => by
    refine ((heval s e).mono fun y hy => h y (.inr hy)).bind fun v => .unlessReturned fun v => ?_
    exact (Frames.define x v (h x (.inl rfl))).bind fun _ => .pure _
  | .ret e, h => by
    refine ((heval s e).mono h).bind fun v => .unlessReturned fun v => ?_
    exact .pure _
  | .expr e, h => (heval s e).mono h
  | .block body, h => frames_statements heval s body _ h
termination_by structural stmt => stmt

theorem frames_statements (heval : ∀ s e, Frames s e.Defines (eval s e)) (s : ScopeId) :
    ∀ (body : List Stmt) (last : Value), (∀ x, Stmt.AnyDefines body x → P x) →
      Frames s P (Eval.statements eval s body last)
  | [], _, _ => .pure _
  | stmt :: rest, _, h => by
    refine (frames_statement heval s stmt fun x hx => h x (.inl hx)).bind fun v =>
      .unlessReturned fun v => ?_
    exact frames_statements heval s rest v fun x hx => h x (.inr hx)
termination_by structural body => body
end

variable (heval : ∀ s e, Frames s e.Defines (eval s e))

include heval

theorem frames_block (s : ScopeId) (body : Block) :
    Frames s (Stmt.AnyDefines body) (Eval.block eval s body) :=
  frames_statements heval s body .null fun _ hx => hx

theorem frames_withArguments (s : ScopeId) (es : List Expr) {next : List Value → Eval Value}
    (hes : ∀ x, Expr.AnyDefines es x → P x) (hnext : ∀ vs, Frames s P (next vs)) :
    Frames s P (Eval.withArguments eval s es next) := by
  induction es generalizing next with
  | nil => exact hnext []
  | cons e es ih =>
    refine ((heval s e).mono fun x hx => hes x (.inl hx)).bind fun v => .unlessReturned fun v => ?_
    exact ih (fun x hx => hes x (.inr hx)) fun vs => hnext (v :: vs)

theorem extends_apply (limit : Int) (f : Value) (args : List Value) (m : Machine) :
    Extends m (Eval.apply eval limit f args m).2 := by
  have hrefl : Extends m m := ⟨Nat.le_refl _, fun _ _ => rfl⟩
  cases f with
  | int | bool | null | returned => exact hrefl
  | fn params body captured =>
    simp only [Eval.apply]
    split
    · exact hrefl
    · rw [Eval.bind_apply]
      simp only [Eval.callDepth]
      split
      · exact hrefl
      · refine Frames.enclose (fun t => ⟨Stmt.AnyDefines body, ?_⟩) _ _ m
        exact (frames_block heval t body).withinCall.bind fun v => .pure v.unwrap

theorem frames_choose (s : ScopeId) (test : Value) (body : Block) (other : Option Block)
    (hbody : ∀ x, Stmt.AnyDefines body x → P x) (hother : ∀ x, Stmt.OtherDefines other x → P x) :
    Frames s P (Eval.choose eval s test body other) := by
  refine (Frames.ofResult test.truth).bind fun b => ?_
  cases b with
  | true => exact (frames_block heval s body).mono hbody
  | false =>
    cases other with
    | some other => exact (frames_block heval s other).mono hother
    | none => exact .pure _

theorem frames_step (limit : Int) (s : ScopeId) (e : Expr) :
    Frames s e.Defines (Eval.step eval limit s e) := by
  cases e with
  | empty | int | bool | fn => exact .pure _
  | ident x => exact .read s x
  | unary op e => exact (heval s e).bind fun v => .unlessReturned fun v => .ofResult _
  | binary l op r =>
    refine ((heval s l).mono fun x hx => .inl hx).bind fun v => .unlessReturned fun v => ?_
    refine ((heval s r).mono fun x hx => .inr hx).bind fun w => .unlessReturned fun w => ?_
    exact .ofResult _
  | cond test body other =>
    refine ((heval s test).mono fun x hx => .inl hx).bind fun v => .unlessReturned fun v => ?_
    exact frames_choose heval s v body other (fun x hx => .inr (.inl hx)) fun x hx =>
      .inr (.inr hx)
  | call callee args =>
    refine ((heval s callee).mono fun x hx => .inl hx).bind fun v => .unlessReturned fun f => ?_
    exact frames_withArguments heval s args (fun x hx => .inr hx) fun vs =>
      .of_extends (extends_apply heval limit f vs)

end Pieces

/-! ### Whole evaluations -/

theorem frames_expression (limit : Int) (allowance : Nat) (s : ScopeId) (e : Expr) :
    Frames s e.Defines (Eval.expression limit allowance s e) := by
  induction allowance generalizing s e with
  | zero => exact .throw _
  | succ allowance ih => exact frames_step ih limit s e

theorem frames_program (limit : Int) (allowance : Nat) (s : ScopeId) (p : Program) :
    Frames s (Stmt.AnyDefines p) (Eval.program limit allowance s p) :=
  (frames_block (frames_expression limit allowance) s p).endingCalls.bind fun v => .pure v.unwrap

/-- **Frames.**  Expressions, statements, sequences and programs write to no scope but the
    one that they are evaluated in, and there only names that they define outside of
    functions; and a call writes to no scope that there was before it. -/
theorem evaluation_frames (limit : Int) (allowance : Nat) (m : Machine) :
    (∀ s e, Frame s e.Defines m (Eval.expression limit allowance s e m).2) ∧
    (∀ s (stmt : Stmt), Frame s stmt.Defines m
      (Eval.statement (Eval.expression limit allowance) s stmt m).2) ∧
    (∀ s body last, Frame s (Stmt.AnyDefines body) m
      (Eval.statements (Eval.expression limit allowance) s body last m).2) ∧
    (∀ s p, Frame s (Stmt.AnyDefines p) m (Eval.program limit allowance s p m).2) ∧
    (∀ f args, Extends m (Eval.apply (Eval.expression limit allowance) limit f args m).2) := by
  have hexpr := frames_expression limit allowance
  refine ⟨?_, ?_, ?_, ?_, ?_⟩
  · intro s e
    exact hexpr s e m
  · intro s stmt
    exact frames_statement hexpr s stmt (fun _ hx => hx) m
  · intro s body last
    exact frames_statements hexpr s body last (fun _ hx => hx) m
  · intro s p
    exact frames_program limit allowance s p m
  · intro f args
    exact extends_apply hexpr limit f args m

end Treewalk
