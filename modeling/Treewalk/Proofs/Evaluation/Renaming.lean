/-
  Treewalk/Proofs/Evaluation/Renaming.lean
  ========================================
  **Evaluation commutes with renaming.**  Names are compared and nothing else
  is done with them, so a map that keeps names apart can be applied before an
  evaluation or after it: to the tree and to all scopes, function values
  included, or to the value or fault and to the scopes that are left.

  Operators are no names, and neither are the words of an error; only the names
  that an error quotes are replaced, among them those in a function that it
  shows.
-/
import Treewalk.Evaluation.Basic

namespace Treewalk

/-! ### Replacing names -/

mutual
/-- The expression with every name in it replaced: those that are read, those that are defined
    and the parameters of functions. -/
def Expr.rename (r : String → String) : Expr → Expr
  | .empty => .empty
  | .ident name => .ident (r name)
  | .int value => .int value
  | .bool value => .bool value
  | .unary op e => .unary op (e.rename r)
  | .binary left op right => .binary (left.rename r) op (right.rename r)
  | .cond test body other =>
    .cond (test.rename r) (Stmt.renameAll r body) (Stmt.renameOther r other)
  | .fn params body => .fn (params.map r) (Stmt.renameAll r body)
  | .call callee args => .call (callee.rename r) (Expr.renameAll r args)

def Expr.renameAll (r : String → String) : List Expr → List Expr
  | [] => []
  | e :: es => e.rename r :: Expr.renameAll r es

def Stmt.rename (r : String → String) : Stmt → Stmt
  | .empty => .empty
  | .define name value => .define (r name) (value.rename r)
  | .ret value => .ret (value.rename r)
  | .expr value => .expr (value.rename r)
  | .block body => .block (Stmt.renameAll r body)

def Stmt.renameAll (r : String → String) : List Stmt → List Stmt
  | [] => []
  | s :: rest => s.rename r :: Stmt.renameAll r rest

def Stmt.renameOther (r : String → String) : Option (List Stmt) → Option (List Stmt)
  | none => none
  | some body => some (Stmt.renameAll r body)
end

/-- The value with the names in functions replaced.  The scopes in them stay. -/
def Value.rename (r : String → String) : Value → Value
  | .returned v => .returned (v.rename r)
  | .fn params body scope => .fn (params.map r) (Stmt.renameAll r body) scope
  | v => v

/-- The fault with the names that its text embeds replaced. -/
def Fault.rename (r : String → String) : Fault → Fault
  | .unbound name => .unbound (r name)
  | .notNumber operand => .notNumber (operand.rename r)
  | .notTruth value => .notTruth (value.rename r)
  | f => f

def Bindings.rename (r : String → String) (b : Bindings) : Bindings :=
  b.map fun p => (r p.1, p.2.rename r)

def Scopes.rename (r : String → String) (scopes : Scopes) : Scopes :=
  scopes.map fun scope => ⟨scope.bindings.rename r, scope.around⟩

def Machine.rename (r : String → String) (m : Machine) : Machine :=
  ⟨m.scopes.rename r, m.callDepth⟩

/-- The result with the names in a fault replaced, and its value mapped as given. -/
def renameResult {α : Type} (r : String → String) (f : α → α) : Except Fault α → Except Fault α
  | .ok a => .ok (f a)
  | .error e => .error (e.rename r)

variable {r : String → String}

/-! ### Values -/

namespace Value

@[simp] theorem kind_rename (v : Value) : (v.rename r).kind = v.kind := by
  cases v <;> rfl

@[simp] theorem unwrap_rename (v : Value) : (v.rename r).unwrap = v.unwrap.rename r := by
  cases v <;> rfl

theorem truth_rename (v : Value) : (v.rename r).truth = renameResult r id v.truth := by
  induction v with
  | int | bool | null | fn => rfl
  | returned v ih => exact ih

theorem checked_rename (v : Int) : checked v = renameResult r (Value.rename r) (checked v) := by
  unfold checked
  split <;> rfl

theorem unary_rename (op : String) (v : Value) :
    (v.rename r).unary op = renameResult r (Value.rename r) (v.unary op) := by
  unfold Value.unary
  split
  · rw [truth_rename]
    cases v.truth <;> rfl
  · cases v with
    | int x => exact checked_rename (-x)
    | bool | null | returned | fn => rfl
  · rw [kind_rename]
    rfl

theorem binaryInt_rename (op : String) (a b : Int) :
    binaryInt op a b = renameResult r (Value.rename r) (binaryInt op a b) := by
  unfold binaryInt
  split
  case h_4 =>
    unfold quotient
    split
    · rfl
    · exact checked_rename _
  all_goals first | exact checked_rename _ | rfl

theorem binaryCompared_rename (op : String) (kind : ValueKind) (equal : Bool) :
    binaryCompared op kind equal =
      renameResult r (Value.rename r) (binaryCompared op kind equal) := by
  unfold binaryCompared
  split <;> rfl

theorem binary_rename (op : String) (a b : Value) :
    (a.rename r).binary op (b.rename r) = renameResult r (Value.rename r) (a.binary op b) := by
  cases a <;> cases b <;> first
    | exact binaryInt_rename _ _ _
    | exact binaryCompared_rename _ _ _
    | rfl

end Value

/-! ### Scopes -/

namespace Bindings

theorem lookup_rename (hr : Function.Injective r) (b : Bindings) (x : String) :
    (b.rename r).lookup (r x) = (b.lookup x).map (Value.rename r) := by
  induction b with
  | nil => rfl
  | cons p rest ih =>
    obtain ⟨y, v⟩ := p
    rw [rename, List.map_cons, lookup_cons, lookup_cons, ← rename, ih]
    by_cases hxy : x = y
    · rw [if_pos hxy, if_pos (congrArg r hxy)]
      rfl
    · rw [if_neg hxy, if_neg fun h => hxy (hr h)]

theorem set_rename (hr : Function.Injective r) (b : Bindings) (x : String) (v : Value) :
    (b.rename r).set (r x) (v.rename r) = (b.set x v).rename r := by
  induction b with
  | nil => rfl
  | cons p rest ih =>
    obtain ⟨y, w⟩ := p
    rw [rename, List.map_cons, set, set, ← rename, ih]
    by_cases hyx : y = x
    · rw [if_pos hyx, if_pos (congrArg r hyx)]
      rfl
    · rw [if_neg hyx, if_neg fun h => hyx (hr h)]
      rfl

/-- Parameters are replaced as one, so those that were the same still are. -/
theorem parameters_rename (hr : Function.Injective r) (names : List String)
    (values : List Value) :
    Eval.parameters (names.map r) (values.map (Value.rename r)) =
      (Eval.parameters names values).rename r := by
  suffices hfold : ∀ b : Bindings,
      ((names.map r).zip (values.map (Value.rename r))).foldl (fun b p => b.set p.1 p.2)
        (b.rename r) =
      ((names.zip values).foldl (fun b p => b.set p.1 p.2) b).rename r from hfold []
  induction names generalizing values with
  | nil => exact fun b => rfl
  | cons x names ih =>
    cases values with
    | nil => exact fun b => rfl
    | cons v values =>
      intro b
      simp only [List.map_cons, List.zip_cons_cons, List.foldl_cons, set_rename hr]
      exact ih values (b.set x v)

end Bindings

namespace Scopes

variable (scopes : Scopes) (s : ScopeId)

@[simp] theorem size_rename : (scopes.rename r).size = scopes.size := Array.size_map

@[simp] theorem getElem?_rename : (scopes.rename r)[s]? =
    scopes[s]?.map fun scope => ⟨scope.bindings.rename r, scope.around⟩ :=
  Array.getElem?_map

@[simp] theorem chain_rename : (scopes.rename r).chain s = scopes.chain s := by
  rw [chain, chain, getElem?_rename]
  cases scopes[s]? <;> rfl

@[simp] theorem bindings_rename :
    (scopes.rename r).bindings s = (scopes.bindings s).rename r := by
  rw [bindings, bindings, getElem?_rename]
  cases scopes[s]? <;> rfl

theorem find?_rename (hr : Function.Injective r) (x : String) :
    (scopes.rename r).find? s (r x) = (scopes.find? s x).map (Value.rename r) := by
  rw [find?, find?, chain_rename, List.map_findSome?]
  congr 1
  funext t
  rw [bindings_rename, Bindings.lookup_rename hr]
  rfl

theorem bind_rename (hr : Function.Injective r) (x : String) (v : Value) :
    (scopes.rename r).bind s (r x) (v.rename r) = (scopes.bind s x v).rename r := by
  refine Array.ext_getElem? fun t => ?_
  rw [getElem?_bind, getElem?_rename, getElem?_rename, getElem?_bind]
  split
  · cases scopes[t]? with
    | none => rfl
    | some scope =>
      simp only [Option.map_some, Bindings.set_rename hr]
  · rfl

theorem enclose_rename (b : Bindings) :
    (scopes.rename r).enclose s (b.rename r) = (scopes.enclose s b).rename r := by
  rw [enclose, enclose, chain_rename, rename, rename, Array.map_push]

end Scopes

/-! ### Computations -/

/-- The second computation does with names replaced what the first one does. -/
def Renames {α : Type} (r : String → String) (f : α → α) (c c' : Eval α) : Prop :=
  ∀ m, c' (m.rename r) = (renameResult r f (c m).1, (c m).2.rename r)

namespace Renames

variable {α β : Type} {f : α → α} {g : β → β}

theorem pure (a : α) : Renames r f (pure a) (pure (f a)) := fun _ => rfl

theorem throw (e : Fault) : Renames r f (throw e) (throw (e.rename r)) := fun _ => rfl

theorem ofResult {result result' : Except Fault α} (h : result' = renameResult r f result) :
    Renames r f (Eval.ofResult result) (Eval.ofResult result') := by
  rw [h]
  exact fun _ => rfl

theorem read (hr : Function.Injective r) (s : ScopeId) (x : String) :
    Renames r (Value.rename r) (Eval.read s x) (Eval.read s (r x)) := by
  intro m
  have hfind := Scopes.find?_rename m.scopes s hr x
  unfold Eval.read
  simp only [Machine.rename, hfind]
  cases m.scopes.find? s x <;> rfl

theorem define (hr : Function.Injective r) (s : ScopeId) (x : String) (v : Value) :
    Renames r id (Eval.bind s x v) (Eval.bind s (r x) (v.rename r)) := by
  intro m
  have hbind := Scopes.bind_rename m.scopes s hr x v
  simp only [Eval.bind, Machine.rename, hbind]
  rfl

theorem enclose (s : ScopeId) (b : Bindings) :
    Renames r id (Eval.enclose s b) (Eval.enclose s (b.rename r)) := by
  intro m
  have henclose := Scopes.enclose_rename (r := r) m.scopes s b
  simp only [Eval.enclose, Machine.rename, henclose, Scopes.size_rename]
  rfl

theorem callDepth : Renames r id Eval.callDepth Eval.callDepth := fun _ => rfl

theorem bind {c c' : Eval α} {next next' : α → Eval β} (h : Renames r f c c')
    (hnext : ∀ a, Renames r g (next a) (next' (f a))) :
    Renames r g (c >>= next) (c' >>= next') := by
  intro m
  rw [Eval.bind_apply, Eval.bind_apply, h m]
  rcases c m with ⟨e | a, m'⟩
  · rfl
  · exact hnext a m'

theorem unlessReturned {v : Value} {next next' : Value → Eval Value}
    (hnext : ∀ v, Renames r (Value.rename r) (next v) (next' (v.rename r))) :
    Renames r (Value.rename r) (Eval.unlessReturned v next)
      (Eval.unlessReturned (v.rename r) next') := by
  cases v with
  | returned v => exact .pure _
  | int | bool | null | fn => exact hnext _

theorem carry {c c' : Eval Value} {next next' : Value → Eval Value}
    (h : Renames r (Value.rename r) c c')
    (hnext : ∀ v, Renames r (Value.rename r) (next v) (next' (v.rename r))) :
    Renames r (Value.rename r) (c >>= fun v => Eval.unlessReturned v next)
      (c' >>= fun v => Eval.unlessReturned v next') :=
  h.bind fun _ => .unlessReturned hnext

theorem withinCall {c c' : Eval α} (h : Renames r f c c') :
    Renames r f (Eval.withinCall c) (Eval.withinCall c') := by
  intro m
  have hbody := h { m with callDepth := m.callDepth + 1 }
  exact congrArg (fun out => (out.1, { out.2 with callDepth := out.2.callDepth - 1 })) hbody

theorem endingCalls {c c' : Eval α} (h : Renames r f c c') :
    Renames r f (Eval.endingCalls c) (Eval.endingCalls c') := by
  intro m
  exact congrArg (fun out => (out.1, { out.2 with callDepth := 0 })) (h m)

theorem unwrap {c c' : Eval Value} (h : Renames r (Value.rename r) c c') :
    Renames r (Value.rename r) (c >>= fun v => Pure.pure v.unwrap)
      (c' >>= fun v => Pure.pure v.unwrap) := by
  refine h.bind fun v => ?_
  rw [Value.unwrap_rename]
  exact .pure _

end Renames

/-! ### Pieces of the evaluator -/

section Pieces

variable {eval : ScopeId → Expr → Eval Value}

mutual
theorem renames_statement (hr : Function.Injective r)
    (heval : ∀ s e, Renames r (Value.rename r) (eval s e) (eval s (e.rename r))) (s : ScopeId) :
    ∀ stmt : Stmt, Renames r (Value.rename r) (Eval.statement eval s stmt)
      (Eval.statement eval s (stmt.rename r))
  | .empty => .pure Value.null
  | .define x e =>
    (heval s e).carry fun v => (Renames.define hr s x v).bind fun _ => .pure Value.null
  | .ret e => (heval s e).carry fun v => .pure (Value.returned v)
  | .expr e => heval s e
  | .block body => renames_statements hr heval s body .null
termination_by structural stmt => stmt

theorem renames_statements (hr : Function.Injective r)
    (heval : ∀ s e, Renames r (Value.rename r) (eval s e) (eval s (e.rename r))) (s : ScopeId) :
    ∀ (body : List Stmt) (last : Value), Renames r (Value.rename r)
      (Eval.statements eval s body last)
      (Eval.statements eval s (Stmt.renameAll r body) (last.rename r))
  | [], last => .pure last
  | stmt :: rest, _ =>
    (renames_statement hr heval s stmt).carry fun v => renames_statements hr heval s rest v
termination_by structural body => body
end

variable (hr : Function.Injective r)
  (heval : ∀ s e, Renames r (Value.rename r) (eval s e) (eval s (e.rename r)))

include hr heval

theorem renames_block (s : ScopeId) (body : Block) :
    Renames r (Value.rename r) (Eval.block eval s body)
      (Eval.block eval s (Stmt.renameAll r body)) :=
  renames_statements hr heval s body .null

theorem renames_apply (limit : Int) (f : Value) (args : List Value) :
    Renames r (Value.rename r) (Eval.apply eval limit f args)
      (Eval.apply eval limit (f.rename r) (args.map (Value.rename r))) := by
  cases f with
  | int | bool | null | returned => exact .throw _
  | fn params body captured =>
    simp only [Value.rename, Eval.apply, List.length_map, Bindings.parameters_rename hr]
    split
    · exact .throw _
    · refine Renames.callDepth.bind fun depth => ?_
      simp only [id_eq]
      split
      · exact .throw _
      · refine (Renames.enclose captured _).bind fun s => ?_
        exact (renames_block hr heval s body).withinCall.unwrap

theorem renames_choose (s : ScopeId) (test : Value) (body : Block) (other : Option Block) :
    Renames r (Value.rename r) (Eval.choose eval s test body other)
      (Eval.choose eval s (test.rename r) (Stmt.renameAll r body) (Stmt.renameOther r other)) := by
  refine (Renames.ofResult test.truth_rename).bind fun b => ?_
  cases b with
  | true => exact renames_block hr heval s body
  | false =>
    cases other with
    | some other => exact renames_block hr heval s other
    | none => exact .pure Value.null

omit hr in
theorem renames_withArguments (s : ScopeId) (es : List Expr)
    {next next' : List Value → Eval Value}
    (hnext : ∀ vs, Renames r (Value.rename r) (next vs) (next' (vs.map (Value.rename r)))) :
    Renames r (Value.rename r) (Eval.withArguments eval s es next)
      (Eval.withArguments eval s (Expr.renameAll r es) next') := by
  induction es generalizing next next' with
  | nil => exact hnext []
  | cons e es ih => exact (heval s e).carry fun v => ih fun vs => hnext (v :: vs)

theorem renames_step (limit : Int) (s : ScopeId) (e : Expr) :
    Renames r (Value.rename r) (Eval.step eval limit s e)
      (Eval.step eval limit s (e.rename r)) := by
  cases e with
  | empty => exact .pure Value.null
  | int v => exact .pure (Value.int v)
  | bool b => exact .pure (Value.bool b)
  | fn params body => exact .pure (Value.fn params body s)
  | ident x => exact .read hr s x
  | unary op e => exact (heval s e).carry fun v => .ofResult (v.unary_rename op)
  | binary l op l' =>
    exact (heval s l).carry fun v => (heval s l').carry fun w =>
      .ofResult (Value.binary_rename op v w)
  | cond test body other =>
    exact (heval s test).carry fun v => renames_choose hr heval s v body other
  | call callee args =>
    exact (heval s callee).carry fun f =>
      renames_withArguments heval s args fun vs => renames_apply hr heval limit f vs

end Pieces

/-! ### Whole evaluations -/

theorem renames_expression (hr : Function.Injective r) (limit : Int) (allowance : Nat)
    (s : ScopeId) (e : Expr) :
    Renames r (Value.rename r) (Eval.expression limit allowance s e)
      (Eval.expression limit allowance s (e.rename r)) := by
  induction allowance generalizing s e with
  | zero => exact .throw .nestedTooDeep
  | succ allowance ih => exact renames_step hr ih limit s e

/-- **Evaluation commutes with renaming.**  If all names in a program and in all scopes are
    replaced, no two by the same one, then the result is the one it was with its names
    replaced, be it a value or a fault, and so are the scopes that are left.  The calls under
    way and the limits are what they were. -/
theorem program_rename (hr : Function.Injective r) (limit : Int) (allowance : Nat) (s : ScopeId)
    (p : Program) (m : Machine) :
    Eval.program limit allowance s (Stmt.renameAll r p) (m.rename r) =
      (renameResult r (Value.rename r) (Eval.program limit allowance s p m).1,
        (Eval.program limit allowance s p m).2.rename r) :=
  (renames_block hr (renames_expression hr limit allowance) s p).endingCalls.unwrap m

/-- With a letter put behind every name, the last of two parameters of the same name still
    wins, and a name that is not found is reported with the letter. -/
theorem program_rename_suffix :
    let r := fun name : String => name ++ "z"
    let p : Program :=
      [.define "f" (.fn ["x", "x"] [.expr (.ident "x")]),
        .define "a" (.call (.ident "f") [.int 1, .int 2]), .expr (.ident "b")]
    let outcome := Eval.program 1 2 0 (Stmt.renameAll r p) (Machine.new.rename r)
    Function.Injective r ∧ outcome.1 = .error (.unbound "bz") ∧
      outcome.2.scopes.find? 0 "az" = some (.int 2) := by
  intro r p outcome
  have hr : Function.Injective r := fun x y h => (String.append_left_inj "z").mp h
  have houtcome : outcome = _ := program_rename hr 1 2 0 p .new
  rw [houtcome]
  exact ⟨hr, rfl, by decide +kernel⟩

end Treewalk
