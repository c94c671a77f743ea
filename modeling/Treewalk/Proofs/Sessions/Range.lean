/-
  Treewalk/Proofs/Sessions/Range.lean
  ===================================
  **Numbers stay in range**, in every session in which all that is evaluated
  is read from texts.

  The range is kept in two places, where numerals are read and where results
  are checked, and no value carries a proof of it.  So it is an invariant of
  all bindings, of the numerals in the bodies of functions, and of all values
  on the way.  A tree that is given, and not read, may break it.
-/
import Mathlib.Algebra.Group.Int.Defs
import Treewalk.Proofs.Evaluation.Messages
import Treewalk.Proofs.Printing.RoundTrip
import Treewalk.Proofs.Sessions.Steps

namespace Treewalk

/-! ### Numerals of trees -/

mutual
/-- The numerals in an expression, those in the bodies of functions among them. -/
def Expr.numerals : Expr → List Int
  | .empty | .ident _ | .bool _ => []
  | .int n => [n]
  | .unary _ e => e.numerals
  | .binary l _ r => l.numerals ++ r.numerals
  | .cond test body other =>
    test.numerals ++ (Stmt.allNumerals body ++ Stmt.otherNumerals other)
  | .fn _ body => Stmt.allNumerals body
  | .call callee args => callee.numerals ++ Expr.allNumerals args

def Expr.allNumerals : List Expr → List Int
  | [] => []
  | e :: es => e.numerals ++ Expr.allNumerals es

def Stmt.numerals : Stmt → List Int
  | .empty => []
  | .define _ value | .ret value | .expr value => value.numerals
  | .block body => Stmt.allNumerals body

def Stmt.allNumerals : List Stmt → List Int
  | [] => []
  | s :: rest => s.numerals ++ Stmt.allNumerals rest

def Stmt.otherNumerals : Option (List Stmt) → List Int
  | none => []
  | some body => Stmt.allNumerals body
end

/-- What a numeral can stand for. -/
def Number.IsNumeral (n : Int) : Prop := 0 ≤ n ∧ n ≤ Number.greatest

theorem Number.IsNumeral.inRange {n : Int} (h : Number.IsNumeral n) : Number.InRange n :=
  ⟨Int.le_trans (by decide) h.1, h.2⟩

mutual
theorem Expr.Printable.numerals : ∀ {e : Expr}, e.Printable → ∀ n ∈ e.numerals, Number.IsNumeral n
  | .ident _, _ | .bool _, _ => nofun
  | .int _, h => List.forall_mem_singleton.mpr h
  | .unary _ _, h => h.2.numerals
  | .binary _ _ _, h => List.forall_mem_append.mpr ⟨h.1.numerals, h.2.2.numerals⟩
  | .cond _ _ _, h =>
    List.forall_mem_append.mpr ⟨h.1.numerals, List.forall_mem_append.mpr
      ⟨Stmt.numerals_of_allPrintable h.2.1, Stmt.numerals_of_otherPrintable h.2.2⟩⟩
  | .fn _ _, h => Stmt.numerals_of_allPrintable h.2
  | .call _ _, h =>
    List.forall_mem_append.mpr ⟨h.1.numerals, Expr.numerals_of_allPrintable h.2⟩

theorem Expr.numerals_of_allPrintable :
    ∀ {es : List Expr}, Expr.AllPrintable es → ∀ n ∈ Expr.allNumerals es, Number.IsNumeral n
  | [], _ => nofun
  | _ :: _, h => List.forall_mem_append.mpr ⟨h.1.numerals, Expr.numerals_of_allPrintable h.2⟩

theorem Stmt.Printable.numerals : ∀ {s : Stmt}, s.Printable → ∀ n ∈ s.numerals, Number.IsNumeral n
  | .define _ _, h => h.2.numerals
  | .ret _, .inl h => by
    subst h
    nofun
  | .ret _, .inr h => h.numerals
  | .expr _, h => Expr.Printable.numerals h
  | .block _, h => Stmt.numerals_of_allPrintable h

theorem Stmt.numerals_of_allPrintable :
    ∀ {ss : List Stmt}, Stmt.AllPrintable ss → ∀ n ∈ Stmt.allNumerals ss, Number.IsNumeral n
  | [], _ => nofun
  | _ :: _, h => List.forall_mem_append.mpr ⟨h.1.numerals, Stmt.numerals_of_allPrintable h.2⟩

theorem Stmt.numerals_of_otherPrintable : ∀ {b : Option (List Stmt)}, Stmt.OtherPrintable b →
    ∀ n ∈ Stmt.otherNumerals b, Number.IsNumeral n
  | none, _ => nofun
  | some _, h => Stmt.numerals_of_allPrintable h
end

/-! ### Values that texts make -/

/-- A number is in range, and so are the numerals in the body of a function. -/
def Value.Bounded : Value → Prop
  | int x => Number.InRange x
  | fn _ body _ => ∀ n ∈ Stmt.allNumerals body, Number.IsNumeral n
  | returned v => v.Bounded
  | bool _ | null => True

/-- A number in range, a truth value, null, or a function that can be written. -/
def Value.Written : Value → Prop
  | int x => Number.InRange x
  | fn params body _ => (Expr.fn params body).Printable
  | returned _ => False
  | bool _ | null => True

/-- A result that is out of range, but not far. -/
def Number.Overflows (x : Int) : Prop := ¬Number.InRange x ∧ x.natAbs ≤ 2 ^ 126

theorem Value.Written.plain {v : Value} (h : v.Written) : v.Plain := by
  cases v <;> first | exact trivial | exact h.elim

theorem Value.Written.bounded {v : Value} (h : v.Written) : v.Bounded := by
  cases v with
  | int | bool | null => exact h
  | returned => exact h.elim
  | fn params body s => exact Stmt.numerals_of_allPrintable h.2

theorem Value.bounded_of_unwrap {v : Value} (h : v.unwrap.Written) : v.Bounded := by
  cases v with
  | returned v => exact Value.Written.bounded (v := v) h
  | int | bool | null | fn => exact Value.Written.bounded h

/-- What can be written, and what is made of it. -/
def Discipline.written : Discipline where
  expr e := e = .empty ∨ e.Printable
  stmt s := s.Printable
  value := Value.Written
  fault f := ∀ x, f = .overflow x → Number.Overflows x
  unary_part h := .inr (h.resolve_left nofun).2
  binary_parts h := by
    obtain ⟨hl, -, hr⟩ := h.resolve_left nofun
    exact ⟨.inr hl, .inr hr⟩
  cond_parts h := by
    obtain ⟨htest, hbody, hother⟩ := h.resolve_left nofun
    refine ⟨.inr htest, Stmt.printable_of_mem hbody, ?_⟩
    rintro b rfl
    exact Stmt.printable_of_mem hother
  call_parts h := by
    obtain ⟨hcallee, hargs⟩ := h.resolve_left nofun
    exact ⟨.inr hcallee, fun e he => .inr (Expr.printable_of_mem hargs e he)⟩
  define_part h := .inr h.2
  ret_part h := h
  expr_part h := .inr h
  block_parts h := Stmt.printable_of_mem h
  plain := Value.Written.plain
  null := trivial
  int h := Number.IsNumeral.inRange (h.resolve_left nofun)
  computed {v} h := by
    cases v <;> first | exact h | exact h.elim
  fn _ h := h.resolve_left nofun
  body h := Stmt.printable_of_mem h.2
  unbound _ := nofun
  truth _ h := by
    obtain ⟨params, body, s, rfl⟩ := fault_truth h
    nofun
  unary _ hv h := by
    rcases fault_unary h with ⟨params, body, s, rfl⟩ | rfl | rfl | ⟨x, rfl, hrange, rfl⟩
    · nofun
    · nofun
    · nofun
    · rintro y ⟨⟩
      have hle := Number.InRange.natAbs_le hv
      exact ⟨hrange, by omega⟩
  binary _ hv hw h := by
    rcases fault_binary h with rfl | rfl | ⟨x, y, rfl, rfl, rfl | ⟨z, hz, hrange, rfl⟩⟩
    · nofun
    · nofun
    · nofun
    · rintro z' ⟨⟩
      exact ⟨hrange, natAbs_le_of_mem_arithmeticResults hv hw hz⟩
  callee _ := nofun
  arity _ _ := nofun
  calls _ := nofun
  nesting := nofun

/-! ### Sessions of texts -/

/-- All that the step evaluates is read from a text, and it binds nothing by itself. -/
def Step.FromText : Step → Prop
  | command (.expression _ _) | command (.apply _ _) | command (.applyNamed _ _ _) |
    command (.set _ _ _) | program _ _ | sequence _ _ => False
  | _ => True

theorem Step.FromText.given {step : Step} (h : step.FromText) : Discipline.written.Given step := by
  cases step with
  | program | sequence => exact h.elim
  | limits => trivial
  | command c =>
    cases c with
    | run | statements =>
      exact fun p hp => Stmt.printable_of_mem (printable_of_parseWithin hp)
    | expression | apply | applyNamed | set => exact h.elim
    | limit | fresh | enclosed | get | contains | display | bindings => trivial

theorem written_after (calls : Int) {steps : List Step} (h : ∀ t ∈ steps, t.FromText) :
    ((Session.start calls).after steps).machine.scopes.Each Value.Written :=
  Discipline.each_after (D := .written) calls fun t ht => (h t ht).given

theorem sees_written (calls : Int) {steps : List Step} {step : Step}
    (hsteps : ∀ t ∈ steps, t.FromText) (hstep : step.FromText) :
    Discipline.written.Sees step.wraps (((Session.start calls).after steps).watch step) :=
  Discipline.sees_watch (written_after calls hsteps) hstep.given

/-- To run what a tree prints as is to run the tree, if it is not too deep to be read. -/
theorem take_print (session : Session) (scope : Nat) {p : Program} (h : p.Printable)
    (hshort : (scan (Program.print p)).length ≤ nestingLimit) :
    session.take (.command (.run scope (Program.print p))) = session.take (.program scope p) := by
  have hparse : parse (Program.print p) = .ok p := by
    rcases (denotes_print h).parseWithin nestingLimit with hread | ⟨hlong, -⟩
    · exact hread
    · exact absurd hlong (Nat.not_lt_of_le hshort)
  rw [Session.take, Session.step_run, hparse]
  rfl

/-- **Numbers stay in range.**  After any steps that evaluate texts, at every moment of the next
    one and when it is over, every number that is bound in some scope, met or replied is in
    range, and every numeral in the body of a function is from 0 to the greatest number; and
    what is said not to fit is out of range, and of no greater size than 2 to the power of
    126. -/
theorem numbers_stay_in_range (calls : Int) (steps : List Step) (step : Step)
    (hsteps : ∀ t ∈ steps, t.FromText) (hstep : step.FromText) :
    let session := (Session.start calls).after steps
    let seen := session.watch step
    (seen.reply, seen.session) = session.take step ∧
    (∀ moment ∈ seen.moments, moment.machine.scopes.Each Value.Bounded ∧
      ∀ v ∈ moment.event.values, v.Bounded) ∧
    (session.take step).2.machine.scopes.Each Value.Bounded ∧
    (∀ v, (session.take step).1 = .value v → v.Bounded) ∧
    (∀ b, (session.take step).1 = .bindings b → b.Each Value.Bounded) ∧
    (∀ e, (session.take step).1 = .error e → ∀ x : Int,
      e.report = "integer overflow: " ++ toString x ++ " does not fit in 64 bits" →
        Number.Overflows x) := by
  intro session seen
  have hbefore := Discipline.each_after (D := .written) calls fun t ht => (hsteps t ht).given
  have hsame : (seen.reply, seen.session) = session.take step := session.watch_of step
  have hsees := Discipline.sees_watch (D := .written) hbefore hstep.given
  have hscopes := hsees.scopes
  have hreply := hsees.reply
  rw [← hsame]
  have hbounded : ∀ v : Value, v.Written → v.Bounded := fun _ => Value.Written.bounded
  refine ⟨rfl, ?_, hscopes.mono hbounded, ?_, ?_, ?_⟩
  · intro moment hmoment
    obtain ⟨hscopes, hfits⟩ := hsees.moments moment hmoment
    exact ⟨hscopes.mono hbounded, fun v hv => Value.bounded_of_unwrap (hfits.carried v hv)⟩
  · intro v (hv : seen.reply = .value v)
    rw [hv] at hreply
    exact Value.bounded_of_unwrap (Discipline.Carried.of_answers hreply)
  · intro b (hb : seen.reply = .bindings b)
    rw [hb] at hreply
    exact Bindings.Each.mono hreply hbounded
  · intro e (he : seen.reply = .error e) x hx
    obtain rfl := overflow_of_report hx
    rw [he] at hreply
    exact hreply x rfl

/-- The square of the least number is as far out of range as can be. -/
theorem numbers_stay_in_range_square :
    let square : Program :=
      [.define "f" (.fn ["x"] [.expr (.binary (.ident "x") "*" (.ident "x"))])]
    let least : Expr := .binary (.unary "-" (.int 9223372036854775807)) "-" (.int 1)
    let call : Program := [.expr (.call (.ident "f") [least])]
    let steps : List Step := [.command (.run 0 (Program.print square))]
    let step : Step := .command (.run 0 (Program.print call))
    (∀ t ∈ steps, t.FromText) ∧ step.FromText ∧
    (((Session.start 400).after steps).take step).1 = .error (.fault (.overflow (2 ^ 126))) ∧
    Number.Overflows (2 ^ 126) := by
  intro square least call steps step
  have hsteps : ∀ t ∈ steps, t.FromText := List.forall_mem_singleton.mpr trivial
  have hdefine := take_print (.start 400) 0 (p := square) (by decide +kernel) (by decide +kernel)
  have hcall := take_print ((Session.start 400).after steps) 0 (p := call) (by decide +kernel)
    (by decide +kernel)
  have hafter : (Session.start 400).after steps = (Session.start 400).after [.program 0 square] :=
    congrArg Prod.snd hdefine
  have hreply : (((Session.start 400).after steps).take step).1 =
      .error (.fault (.overflow (2 ^ 126))) := by
    refine (congrArg Prod.fst hcall).trans ?_
    rw [hafter]
    rfl
  obtain ⟨-, -, -, -, -, herror⟩ := numbers_stay_in_range 400 steps step hsteps trivial
  exact ⟨hsteps, trivial, hreply, herror _ hreply _ rfl⟩

end Treewalk
