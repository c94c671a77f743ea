/-
  Treewalk/Proofs/Sessions/Piecewise.lean
  =======================================
  **Running piecewise is running the whole.**  Texts that are programs make one
  program when they are joined by semicolons, and to run it is to run them one
  after another in the same scope, until one fails or returns.

  From one text to the next nothing is carried over but the scopes: no call is
  under way between them, as none is when a sequence goes on, and the value of
  the last statement is not looked at by the next one.

  Where a name is bound to a wrapped value, a program may end like one that
  returns although it executes no `return`.
-/
import Mathlib.Data.List.Forall2
import Treewalk.Interpreter
import Treewalk.Proofs.Evaluation.CallLimit
import Treewalk.Proofs.Evaluation.Refinement
import Treewalk.Proofs.Parsing.Joining

namespace Treewalk

/-! ### Running one program after another -/

/-- Runs programs one after another in a scope, given the value of those before them.  The run
    stops after the first program that fails, or for which `ends` holds on the machine that it
    starts from.  If there is none, the value is that of the last program with a statement. -/
def Machine.runEach (limits : Limits) (s : ScopeId) (ends : Machine → Program → Bool) :
    Machine → List Program → Value → Except Error Value × Machine
  | m, [], last => (.ok last, m)
  | m, p :: rest, last =>
    match m.run limits s p with
    | (.error e, m') => (.error e, m')
    | (.ok v, m') =>
      if ends m p then (.ok v, m')
      else runEach limits s ends m' rest (if p.isEmpty then last else v)

/-- The statements of the program come to a wrapped value. -/
def Machine.endsWrapped (limits : Limits) (s : ScopeId) (m : Machine) (p : Program) : Bool :=
  match (Eval.block limits.expression s p m).1 with
  | .ok (.returned _) => true
  | _ => false

/-- A `return` outside all calls is executed: with the reference evaluator, in which a `return`
    aborts and a call catches it, the statements of the program abort. -/
def Machine.executesReturn (limits : Limits) (s : ScopeId) (m : Machine) (p : Program) : Bool :=
  match (Reference.block (Reference.expression limits.calls limits.nesting) s p m).1 with
  | .error (.abort _) => true
  | _ => false

/-! ### Running a program -/

/-- What a program comes to, given what its statements do. -/
def concluded (result : Except Fault Value) : Except Error Value :=
  (result.map Value.unwrap).mapError .fault

theorem Machine.run_eq (limits : Limits) (s : ScopeId) (p : Program) (m : Machine) :
    m.run limits s p = (concluded (Eval.block limits.expression s p m).1,
      { (Eval.block limits.expression s p m).2 with callDepth := 0 }) := by
  simp only [Machine.run, Eval.program, Eval.bind_apply, Eval.endingCalls]
  unfold Limits.expression
  rcases Eval.block (Eval.expression limits.calls limits.nesting) s p m with ⟨f | v, m'⟩ <;> rfl

/-- To run a program when no call is under way is to evaluate its statements. -/
theorem Machine.run_idle (limits : Limits) (s : ScopeId) (p : Program) {m : Machine}
    (hm : m.callDepth = 0) :
    m.run limits s p = (concluded (Eval.block limits.expression s p m).1,
      (Eval.block limits.expression s p m).2) := by
  have hidle : (Eval.block limits.expression s p m).2.callDepth = 0 :=
    (steady_block _ _ s p m).trans hm
  rw [Machine.run_eq, ← hidle]

/-- The ways in which the statements of a program, evaluated behind others, and the program by
    itself can end. -/
theorem Machine.run_outcome (limits : Limits) (s : ScopeId) (p : Program) {m : Machine}
    (hm : m.callDepth = 0) {last : Value} (hlast : last.Plain) :
    (∃ f m', Eval.statements limits.expression s p last m = (.error f, m') ∧
      m.run limits s p = (.error (.fault f), m')) ∨
    (∃ v m', Eval.statements limits.expression s p last m = (.ok (.returned v), m') ∧
      m.run limits s p = (.ok v, m') ∧ m.endsWrapped limits s p = true) ∨
    (∃ v m', Eval.statements limits.expression s p last m =
        (.ok (if p.isEmpty then last else v), m') ∧
      m.run limits s p = (.ok v, m') ∧ m.endsWrapped limits s p = false ∧
      (if p.isEmpty then last else v).Plain ∧ m'.callDepth = 0) := by
  have hidle : (Eval.block limits.expression s p m).2.callDepth = 0 :=
    (steady_block _ _ s p m).trans hm
  rw [Machine.run_idle limits s p hm, Machine.endsWrapped]
  cases p with
  | nil => exact .inr (.inr ⟨.null, m, rfl, rfl, rfl, hlast, hm⟩)
  | cons stmt p =>
    have hblock : Eval.statements limits.expression s (stmt :: p) last m =
        Eval.block limits.expression s (stmt :: p) m := rfl
    rw [hblock]
    rcases hp : Eval.block limits.expression s (stmt :: p) m with ⟨f | v, m'⟩ <;> rw [hp] at hidle
    · exact .inl ⟨f, m', rfl, rfl⟩
    · cases v with
      | returned v => exact .inr (.inl ⟨v, m', rfl, rfl, rfl⟩)
      | int | bool | null | fn => exact .inr (.inr ⟨_, m', rfl, rfl, rfl, trivial, hidle⟩)

/-! ### The whole and its parts -/

/-- The programs in turn do what their statements do in one sequence. -/
theorem runEach_eq (limits : Limits) (s : ScopeId) (programs : List Program) {m : Machine}
    (hm : m.callDepth = 0) {last : Value} (hlast : last.Plain) :
    m.runEach limits s (Machine.endsWrapped limits s) programs last =
      (concluded (Eval.statements limits.expression s programs.flatten last m).1,
        (Eval.statements limits.expression s programs.flatten last m).2) := by
  induction programs generalizing m last with
  | nil =>
    rw [List.flatten_nil, Eval.statements, Eval.pure_apply, Machine.runEach]
    simp only [concluded, Except.map, Except.mapError, hlast.unwrap]
  | cons p rest ih =>
    rw [List.flatten_cons, Eval.statements_append limits.expression s p _ hlast, Eval.bind_apply,
      Machine.runEach]
    rcases Machine.run_outcome limits s p hm hlast with ⟨f, m', hstatements, hrun⟩ |
      ⟨v, m', hstatements, hrun, hends⟩ | ⟨v, m', hstatements, hrun, hends, hv, hm'⟩ <;>
      rw [hstatements, hrun]
    · rfl
    · rw [hends]
      rfl
    · simp only [hends, hv.unlessReturned]
      exact ih hm' hv

/-- The statements of all programs in one make a program that does what the programs do in
    turn. -/
theorem run_flatten (limits : Limits) (s : ScopeId) (programs : List Program) {m : Machine}
    (hm : m.callDepth = 0) :
    m.run limits s programs.flatten =
      m.runEach limits s (Machine.endsWrapped limits s) programs .null := by
  have hnull : Value.null.Plain := trivial
  exact (Machine.run_idle limits s _ hm).trans (runEach_eq limits s programs hm hnull).symm

/-! ### Where nothing is wrapped -/

section Plain

variable (limits : Limits) (s : ScopeId) {m : Machine} (hm : m.Plain)

include hm

theorem endsWrapped_eq_executesReturn (p : Program) :
    m.endsWrapped limits s p = m.executesReturn limits s p := by
  unfold Machine.endsWrapped Machine.executesReturn
  have hrefines := refines_block (refines_expression limits.calls limits.nesting) s p
  rcases hrefines.outcome hm with ⟨v, m', hc, hd, hv, -⟩ | ⟨v, m', hc, hd, -, -⟩ |
    ⟨f, m', hc, hd, -⟩ <;> unfold Limits.expression <;> rw [hc, hd]
  -- A value of the reference evaluator is not wrapped.
  cases v <;> first | rfl | exact hv.elim

theorem plain_run (p : Program) : (m.run limits s p).2.Plain := by
  have hrefines := refines_block (refines_expression limits.calls limits.nesting) s p
  obtain ⟨hc, -, hplain⟩ := hrefines m hm
  rw [Machine.run_eq]
  unfold Limits.expression
  rw [hc]
  exact hplain

/-- Where no name is bound to a wrapped value, a `return` is what ends a run early. -/
theorem runEach_executesReturn (programs : List Program) (last : Value) :
    m.runEach limits s (Machine.endsWrapped limits s) programs last =
      m.runEach limits s (Machine.executesReturn limits s) programs last := by
  induction programs generalizing m last with
  | nil => rfl
  | cons p rest ih =>
    have hplain := plain_run limits s hm p
    rw [Machine.runEach, Machine.runEach, endsWrapped_eq_executesReturn limits s hm p]
    rcases hrun : m.run limits s p with ⟨e | v, m'⟩
    · rfl
    · rw [hrun] at hplain
      simp only [ih hplain]

end Plain

/-! ### Joined texts -/

/-- **Running piecewise is running the whole.**

    Texts that are programs are one program when they are joined by semicolons.  Running it in
    any scope has the value or fault of running the texts one after another in that scope, and
    leaves the same scopes with the same bindings, where the run stops after the first text that
    fails or whose statements come to a wrapped value.  If no name is bound to a wrapped value
    at the beginning, the texts of the second kind are those that execute a `return` outside all
    calls. -/
theorem run_joined (limit : Nat) (texts : List String) (programs : List Program)
    (hparse : List.Forall₂ (fun text p => parseWithin limit text = .ok p) texts programs) :
    ∃ whole, parseWithin limit (";".intercalate texts) = .ok whole ∧
      ∀ (limits : Limits) (scopes : Scopes) (s : ScopeId),
        Machine.run ⟨scopes, 0⟩ limits s whole =
          Machine.runEach limits s (Machine.endsWrapped limits s) ⟨scopes, 0⟩ programs .null ∧
        (Machine.Plain ⟨scopes, 0⟩ → Machine.run ⟨scopes, 0⟩ limits s whole =
          Machine.runEach limits s (Machine.executesReturn limits s) ⟨scopes, 0⟩ programs
            .null) := by
  refine ⟨programs.flatten, parseWithin_joined hparse, fun limits scopes s => ?_⟩
  have hidle : Machine.callDepth ⟨scopes, 0⟩ = 0 := rfl
  have hrun := run_flatten limits s programs hidle
  exact ⟨hrun, fun hplain => hrun.trans (runEach_executesReturn limits s hplain programs .null)⟩

/-- What stands behind a `return` is not run: here it would fail, since no name is bound. -/
theorem run_joined_return :
    List.Forall₂ (fun text p => parseWithin 1 text = .ok p) ["1", "", "return;", "y"]
        [[.expr (.int 1)], [], [.ret .empty], [.expr (.ident "y")]] ∧
      Machine.new.Plain ∧
      ∃ whole, parseWithin 1 (";".intercalate ["1", "", "return;", "y"]) = .ok whole ∧
        Machine.new.run .standard 0 whole = (.ok .null, .new) := by
  have hone : tokensFrom "1".toList = [⟨.int, "1"⟩] := tokensFrom_singleton rfl
  have hword : tokensFrom "return".toList = ⟨.returnWord, "return"⟩ :: tokensFrom [] :=
    tokensFrom_cons rfl _
  have hreturn : tokensFrom "return;".toList = [⟨.returnWord, "return"⟩, ⟨.semicolon, ";"⟩] := by
    refine (tokensFrom_semicolon "return".toList []).trans ?_
    rw [hword, tokensFrom_nil]
    rfl
  have hy : tokensFrom "y".toList = [⟨.ident, "y"⟩] := tokensFrom_singleton rfl
  have hparse : List.Forall₂ (fun text p => parseWithin 1 text = .ok p) ["1", "", "return;", "y"]
      [[.expr (.int 1)], [], [.ret .empty], [.expr (.ident "y")]] :=
    .cons (parseWithin_ok.mpr ⟨[], by rw [hone]; rfl⟩) <| .cons (parseWithin_empty 1) <|
      .cons (parseWithin_ok.mpr ⟨[], by rw [hreturn]; rfl⟩) <|
      .cons (parseWithin_ok.mpr ⟨[], by rw [hy]; rfl⟩) .nil
  obtain ⟨whole, hwhole, hrun⟩ := run_joined 1 _ _ hparse
  refine ⟨hparse, Machine.plain_new, whole, hwhole, ?_⟩
  exact ((hrun .standard Machine.new.scopes 0).2 Machine.plain_new).trans rfl

/-- A name is bound to a wrapped value and no `return` is executed, but what stands behind the
    name is not run. -/
theorem run_joined_wrapped :
    List.Forall₂ (fun text p => parse text = .ok p) ["x", "1"]
        [[.expr (.ident "x")], [.expr (.int 1)]] ∧
      Machine.runText ⟨#[⟨[("x", .returned (.int 5))], []⟩], 0⟩ .standard 0
          (";".intercalate ["x", "1"]) =
        (.ok (.int 5), ⟨#[⟨[("x", .returned (.int 5))], []⟩], 0⟩) ∧
      Machine.runEach .standard 0 (Machine.executesReturn .standard 0)
          ⟨#[⟨[("x", .returned (.int 5))], []⟩], 0⟩ [[.expr (.ident "x")], [.expr (.int 1)]] .null =
        (.ok (.int 1), ⟨#[⟨[("x", .returned (.int 5))], []⟩], 0⟩) := by
  have hx : tokensFrom "x".toList = [⟨.ident, "x"⟩] := tokensFrom_singleton rfl
  have hone : tokensFrom "1".toList = [⟨.int, "1"⟩] := tokensFrom_singleton rfl
  have hparse : List.Forall₂ (fun text p => parse text = .ok p) ["x", "1"]
      [[.expr (.ident "x")], [.expr (.int 1)]] :=
    .cons (parseWithin_ok.mpr ⟨[], by rw [hx]; rfl⟩)
      (.cons (parseWithin_ok.mpr ⟨[], by rw [hone]; rfl⟩) .nil)
  have hjoined : parse (";".intercalate ["x", "1"]) = .ok [.expr (.ident "x"), .expr (.int 1)] :=
    parseWithin_joined hparse
  refine ⟨hparse, ?_, rfl⟩
  rw [Machine.runText, hjoined]
  rfl

end Treewalk
