/-
  Treewalk/Proofs/Parsing/Soundness.lean
  ======================================
  **Only phrases of the grammar are read.**  The climbing loop is the point of
  interest: its left operand always lies in a stratum that the next token can
  be an operator of.  The operand that it starts with is a unary expression or
  a call, and every right operand has stopped at a token that does not bind
  tighter than the operator in front of it.

  The tokens are taken to be well-formed, as those of a scan are; what is left
  of them is so too.
-/
import Treewalk.Proofs.Parsing.Grammar
import Treewalk.Proofs.Parsing.Progress

namespace Treewalk.Parser

/-- Tokens as they are made by a scan. -/
def Readable (u : List Token) : Prop := ∀ t ∈ u, t.WellFormed

theorem Readable.tail {t : Token} {u : List Token} (h : Readable (t :: u)) : Readable u :=
  fun s hs => h s (List.mem_cons_of_mem t hs)

theorem Readable.head {t : Token} {u : List Token} (h : Readable (t :: u)) : t.WellFormed :=
  h t List.mem_cons_self

theorem Starts.terminal {k : Kind} {u r : List Token} (h : Starts k u r) (hu : Readable u) :
    Terminal k u r ∧ Readable r := by
  obtain ⟨t, hk, rfl⟩ := h
  exact ⟨⟨t, hu.head, hk, rfl⟩, hu.tail⟩

theorem expect_ident_sound {u r : List Token} {x : String} (hu : Readable u)
    (h : expect .ident u = .ok (x, r)) : Readable r ∧ NameToken u x r := by
  obtain ⟨t, hk, hx, rfl⟩ := expect_ok.mp h
  exact ⟨hu.tail, t, hu.head, hk, hx, rfl⟩

/-! ### Items between parentheses -/

section Items

variable {α : Type} {item : Parser α} {R : List Token → α → List Token → Prop}

theorem runs_nextItem_sound
    (hitem : ∀ u x v, Readable u → item u = .ok (x, v) → Readable v ∧ R u x v)
    {xs ys : List α} {v w : List Token} (hruns : Runs (nextItem item) xs v ys w)
    (hv : Readable v) :
    Readable w ∧ ∃ zs, ys = zs ++ xs ∧
      ∀ {r} {more : List α}, MoreSeparated R w more r →
        MoreSeparated R v (zs.reverse ++ more) r := by
  induction hruns with
  | refl => exact ⟨hv, [], rfl, fun hmore => hmore⟩
  | head hstep _ ih =>
    obtain ⟨v', x, hcomma, hx, rfl⟩ := nextItem_some.mp hstep
    obtain ⟨hterm, hv'⟩ := hcomma.terminal hv
    obtain ⟨hv'', hR⟩ := hitem _ _ _ hv' hx
    obtain ⟨hw, zs, rfl, hmore⟩ := ih hv''
    refine ⟨hw, zs ++ [x], by simp, ?_⟩
    intro r more h
    simpa using MoreSeparated.comma hterm hR (hmore h)

theorem commaSeparated_sound (hshrinking : Shrinking item)
    (hitem : ∀ u x v, Readable u → item u = .ok (x, v) → Readable v ∧ R u x v)
    {u r : List Token} {xs : List α} (hu : Readable u) (h : commaSeparated item u = .ok (xs, r)) :
    Readable r ∧ Separated R u xs r := by
  rcases (commaSeparated_ok hshrinking).mp h with
    ⟨hclose, rfl⟩ | ⟨-, x, v, ys, w, hx, hruns, -, hclose, rfl⟩
  · obtain ⟨hterm, hr⟩ := hclose.terminal hu
    exact ⟨hr, .none hterm⟩
  · obtain ⟨hv, hR⟩ := hitem _ _ _ hu hx
    obtain ⟨hw, zs, rfl, hmore⟩ := runs_nextItem_sound hitem hruns hv
    obtain ⟨hterm, hr⟩ := hclose.terminal hw
    refine ⟨hr, ?_⟩
    simpa using Separated.some hR (hmore (.done hterm))

end Items

theorem derives_moreArguments {u r : List Token} {es : List Expr}
    (h : MoreSeparated (fun u e r => Derives (.expression .equality e) u r) u es r) :
    Derives (.moreArguments es) u r := by
  induction h with
  | done hclose => exact .argumentsDone hclose
  | comma hcomma he _ ih => exact .argumentsComma hcomma he ih

theorem derives_arguments {u r : List Token} {es : List Expr}
    (h : Separated (fun u e r => Derives (.expression .equality e) u r) u es r) :
    Derives (.arguments es) u r := by
  cases h with
  | none hclose => exact .noArguments hclose
  | some he hmore => exact .someArguments he (derives_moreArguments hmore)

/-! ### Pieces -/

/-- What is read at a precedence is an expression of a stratum that the precedence admits,
    and nothing that binds tighter follows. -/
def ExpressionSound (expr : Precedence → Parser Expr) : Prop :=
  ∀ {p u e r}, p ≤ .unary → Readable u → expr p u = .ok (e, r) →
    Readable r ∧ (kindOf r).precedence ≤ p ∧ ∃ q, p.Admits q ∧ Derives (.expression q e) u r

def BlockSound (block : Parser Block) : Prop :=
  ∀ {u₀ u body r}, Readable u → Terminal .leftBrace u₀ u → block u = .ok (body, r) →
    Readable r ∧ Derives (.block body) u₀ r

section Pieces

variable {expr : Precedence → Parser Expr} {block : Parser Block}

theorem ExpressionSound.lowest (h : ExpressionSound expr) {u r : List Token} {e : Expr}
    (hu : Readable u) (he : expr .lowest u = .ok (e, r)) :
    Readable r ∧ (kindOf r).precedence ≤ .lowest ∧ Derives (.expression .equality e) u r := by
  obtain ⟨hr, hstop, q, hq, hderives⟩ := h (by decide) hu he
  exact ⟨hr, hstop, .descend (Precedence.equality_le_of_admits hq) hderives⟩

theorem OtherwiseRead.sound (hblock : BlockSound block) {u r : List Token} {other : Option Block}
    (hu : Readable u) (h : OtherwiseRead block u other r) :
    Readable r ∧ Derives (.otherwise other) u r := by
  rcases h with ⟨-, rfl, rfl⟩ | ⟨v, w, body, helse, hbrace, hbody, rfl⟩
  · exact ⟨hu, .noOtherwise⟩
  · obtain ⟨helse, hv⟩ := helse.terminal hu
    obtain ⟨hbrace, hw⟩ := hbrace.terminal hv
    obtain ⟨hr, hbody⟩ := hblock hw hbrace hbody
    exact ⟨hr, .someOtherwise helse hbody⟩

variable (hexpr : ExpressionSound expr) (hblock : BlockSound block)

include hexpr

theorem group_sound {u₀ u r : List Token} {e : Expr} (hopen : Terminal .leftParen u₀ u)
    (hu : Readable u) (h : group expr u = .ok (e, r)) :
    Readable r ∧ Derives (.expression .call e) u₀ r := by
  obtain ⟨v, he, hclose⟩ := group_ok.mp h
  obtain ⟨hv, -, he⟩ := hexpr.lowest hu he
  obtain ⟨hclose, hr⟩ := hclose.terminal hv
  exact ⟨hr, .group hopen he hclose⟩

include hblock

theorem choice_sound {u₀ u r : List Token} {e : Expr} (hif : Terminal .ifWord u₀ u)
    (hu : Readable u) (h : choice expr block u = .ok (e, r)) :
    Readable r ∧ Derives (.expression .call e) u₀ r := by
  obtain ⟨u₁, test, u₂, u₃, u₄, body, u₅, other, hopen, htest, hclose, hbrace, hbody, hother,
    rfl⟩ := choice_ok.mp h
  obtain ⟨hopen, hu₁⟩ := hopen.terminal hu
  obtain ⟨hu₂, -, htest⟩ := hexpr.lowest hu₁ htest
  obtain ⟨hclose, hu₃⟩ := hclose.terminal hu₂
  obtain ⟨hbrace, hu₄⟩ := hbrace.terminal hu₃
  obtain ⟨hu₅, hbody⟩ := hblock hu₄ hbrace hbody
  obtain ⟨hr, hother⟩ := hother.sound hblock hu₅
  exact ⟨hr, .choice hif hopen htest hclose hbody hother⟩

omit hexpr in
theorem function_sound {u₀ u r : List Token} {e : Expr} (hfn : Terminal .fnWord u₀ u)
    (hu : Readable u) (h : function block u = .ok (e, r)) :
    Readable r ∧ Derives (.expression .call e) u₀ r := by
  obtain ⟨u₁, params, u₂, u₃, body, hopen, hparams, hbrace, hbody, rfl⟩ := function_ok.mp h
  obtain ⟨hopen, hu₁⟩ := hopen.terminal hu
  obtain ⟨hu₂, hparams⟩ := commaSeparated_sound (shrinking_expect .ident)
    (fun _ _ _ => expect_ident_sound) hu₁ hparams
  obtain ⟨hbrace, hu₃⟩ := hbrace.terminal hu₂
  obtain ⟨hr, hbody⟩ := hblock hu₃ hbrace hbody
  exact ⟨hr, .function hfn hopen hparams hbody⟩

/-- An operand is a unary expression or a call, and what follows does not bind tighter. -/
theorem OperandRead.sound {u r : List Token} {e : Expr} (hu : Readable u)
    (h : OperandRead expr block u e r) :
    Readable r ∧ ∃ q, (q = .unary ∨ q = .call) ∧ (kindOf r).precedence ≤ q ∧
      Derives (.expression q e) u r := by
  have hprimary : ∀ {u r e}, Readable r ∧ Derives (.expression .call e) u r →
      Readable r ∧ ∃ q, (q = .unary ∨ q = .call) ∧ (kindOf r).precedence ≤ q ∧
        Derives (.expression q e) u r :=
    fun ⟨hr, he⟩ => ⟨hr, .call, .inr rfl, Precedence.le_call _, he⟩
  cases h with
  | @ident t r hk => exact hprimary ⟨hu.tail, .ident ⟨t, hu.head, hk, rfl, rfl⟩⟩
  | int hk hv =>
    obtain ⟨rfl, hle⟩ := (Number.ofNumeral?_eq_some_iff (hu.head.isNumeral hk).2 _).mp hv
    exact hprimary ⟨hu.tail, .int hu.head hk hle⟩
  | @yes t r hk => exact hprimary ⟨hu.tail, .yes ⟨t, hu.head, hk, rfl⟩⟩
  | @no t r hk => exact hprimary ⟨hu.tail, .no ⟨t, hu.head, hk, rfl⟩⟩
  | unary hk he =>
    obtain ⟨hr, hstop, q, hq, he⟩ := hexpr (by decide) hu.tail he
    exact ⟨hr, .unary, .inl rfl, hstop,
      .unary hu.head hk (.descend (Precedence.unary_le_of_admits hq) he)⟩
  | @group t v r e hk he => exact hprimary (group_sound hexpr ⟨t, hu.head, hk, rfl⟩ hu.tail he)
  | @choice t v r e hk he =>
    exact hprimary (choice_sound hexpr hblock ⟨t, hu.head, hk, rfl⟩ hu.tail he)
  | @function t v r e hk he =>
    exact hprimary (function_sound hblock ⟨t, hu.head, hk, rfl⟩ hu.tail he)

omit hblock in
/-- The invariant of the climbing loop: the left operand lies in an admitted stratum, and the
    next token does not bind tighter than this stratum. -/
theorem runs_carryOn_sound (hshrinking : Shrinking (expr .lowest)) {p : Precedence}
    {left e : Expr} {u v r : List Token} (hruns : Runs (carryOn expr p) left v e r)
    (hv : Readable v)
    (hleft : ∃ q, p.Admits q ∧ (kindOf v).precedence ≤ q ∧ Derives (.expression q left) u v) :
    Readable r ∧ ∃ q, p.Admits q ∧ (kindOf r).precedence ≤ q ∧ Derives (.expression q e) u r := by
  induction hruns with
  | refl => exact ⟨hv, hleft⟩
  | head hstep _ ih =>
    obtain ⟨q, -, hnext, hleft⟩ := hleft
    obtain ⟨t, w, rfl, hp, (⟨hk, right, hright, rfl⟩ | ⟨hk, args, hargs, rfl⟩)⟩ :=
      carryOn_some.mp hstep
    -- All that binds tighter than the operator is read already, on both of its sides.
    · have hk' := Kind.precedence_lt_unary_of_operator hk
      obtain ⟨hw, hstop, q', hq', hright⟩ := hexpr (Precedence.le_of_lt hk') hv.tail hright
      refine ih hw ⟨t.kind.precedence, .inl hp, hstop, ?_⟩
      exact .binary hv.head hk (.descend hnext hleft) (Precedence.lt_of_admits hq' hk') hright
    -- An argument list binds tightest, so what stands in front of it is a call or a primary.
    · have hcall : (kindOf (t :: w)).precedence = .call := by
        show t.kind.precedence = .call
        rw [hk]
        rfl
      obtain ⟨hw, hargs⟩ := commaSeparated_sound hshrinking
        (fun u e r hu he => ⟨(hexpr.lowest hu he).1, (hexpr.lowest hu he).2.2⟩) hv.tail hargs
      refine ih hw ⟨.call, .inl ?_, Precedence.le_call _, ?_⟩
      · rwa [← hcall]
      · exact .call (.descend (by rwa [← hcall]) hleft) ⟨t, hv.head, hk, rfl⟩
          (derives_arguments hargs)

/-! ### Statements -/

omit hblock in
theorem definition_sound {u₀ u r : List Token} {s : Stmt} (hlet : Terminal .letWord u₀ u)
    (hu : Readable u) (h : definition expr u = .ok (s, r)) :
    Readable r ∧ Derives (.statement s) u₀ r := by
  obtain ⟨x, u₁, u₂, e, u₃, hname, hassign, he, hend, rfl⟩ := definition_ok.mp h
  obtain ⟨hu₁, hname⟩ := expect_ident_sound hu hname
  obtain ⟨hassign, hu₂⟩ := hassign.terminal hu₁
  obtain ⟨hu₃, -, he⟩ := hexpr.lowest hu₂ he
  obtain ⟨hend, hr⟩ := hend.terminal hu₃
  exact ⟨hr, .define hlet hname hassign he hend⟩

omit hblock in
theorem returned_sound {u₀ u r : List Token} {s : Stmt} (hreturn : Terminal .returnWord u₀ u)
    (hu : Readable u) (h : returned expr u = .ok (s, r)) :
    Readable r ∧ Derives (.statement s) u₀ r := by
  rcases returned_ok.mp h with ⟨hend, rfl⟩ | ⟨-, e, v, he, hend, rfl⟩
  · obtain ⟨hend, hr⟩ := hend.terminal hu
    exact ⟨hr, .bareReturn hreturn hend⟩
  · obtain ⟨hv, -, he⟩ := hexpr.lowest hu he
    obtain ⟨hend, hr⟩ := hend.terminal hv
    exact ⟨hr, .ret hreturn he hend⟩

omit hblock in
theorem expressionStatement_sound {u r : List Token} {s : Stmt} (hu : Readable u)
    (h : expressionStatement expr u = .ok (s, r)) :
    Readable r ∧ Derives (.statement s) u r := by
  obtain ⟨e, v, he, (hend | ⟨-, rfl⟩), rfl⟩ := expressionStatement_ok.mp h
  · obtain ⟨hv, -, he⟩ := hexpr.lowest hu he
    obtain ⟨hend, hr⟩ := hend.terminal hv
    exact ⟨hr, .closed he hend⟩
  · obtain ⟨hr, hstop, he⟩ := hexpr.lowest hu he
    exact ⟨hr, .bare he ((Kind.continuation?_eq_none_iff _).mpr hstop)⟩

/-- What is read as a statement can stand in front of any statements; a lone semicolon adds
    nothing to them. -/
theorem statement_sound {u v : List Token} {o : Option Stmt} (hu : Readable u)
    (h : statement expr block u = .ok (o, v)) :
    Readable v ∧ ∀ {ss r}, Derives (.statements ss) v r →
      Derives (.statements (o.toList ++ ss)) u r := by
  have hone : ∀ {s}, Readable v ∧ Derives (.statement s) u v →
      Readable v ∧ ∀ {ss r}, Derives (.statements ss) v r →
        Derives (.statements ((some s).toList ++ ss)) u r :=
    fun ⟨hv, hs⟩ => ⟨hv, fun hss => .cons hs hss⟩
  rcases statement_ok.mp h with ⟨w, s, hk, hs, rfl⟩ | ⟨w, s, hk, hs, rfl⟩ |
    ⟨w, body, hk, hbody, rfl⟩ | ⟨hk, rfl⟩ | ⟨-, s, hs, rfl⟩
  · obtain ⟨hk, hw⟩ := hk.terminal hu
    exact hone (definition_sound hexpr hk hw hs)
  · obtain ⟨hk, hw⟩ := hk.terminal hu
    exact hone (returned_sound hexpr hk hw hs)
  · obtain ⟨hk, hw⟩ := hk.terminal hu
    obtain ⟨hv, hbody⟩ := hblock hw hk hbody
    exact hone ⟨hv, .blockStatement hbody⟩
  · obtain ⟨hk, hv⟩ := hk.terminal hu
    exact ⟨hv, fun hss => .skip hk hss⟩
  · exact hone (expressionStatement_sound hexpr hu hs)

theorem runs_nextStatement_sound {isEnd : Kind → Bool} {ss ss' : List Stmt} {u v : List Token}
    (hruns : Runs (nextStatement expr block isEnd) ss u ss' v) (hu : Readable u) :
    Readable v ∧ ∃ more, ss' = more ++ ss ∧
      ∀ {rest r}, Derives (.statements rest) v r →
        Derives (.statements (more.reverse ++ rest)) u r := by
  induction hruns with
  | refl => exact ⟨hu, [], rfl, fun hrest => hrest⟩
  | head hstep _ ih =>
    obtain ⟨-, o, hs, rfl⟩ := nextStatement_some.mp hstep
    obtain ⟨hv, hcons⟩ := statement_sound hexpr hblock hu hs
    obtain ⟨hw, more, rfl, hmore⟩ := ih hv
    refine ⟨hw, more ++ o.toList, by simp, ?_⟩
    intro rest r hrest
    have hreverse : o.toList.reverse = o.toList := by cases o <;> rfl
    simpa [hreverse] using hcons (hmore hrest)

theorem statements_sound {isEnd : Kind → Bool} {ss : List Stmt} {u v : List Token}
    (hruns : Runs (nextStatement expr block isEnd) [] u ss.reverse v) (hu : Readable u) :
    Readable v ∧ Derives (.statements ss) u v := by
  obtain ⟨hv, more, hss, hmore⟩ := runs_nextStatement_sound hexpr hblock hruns hu
  refine ⟨hv, ?_⟩
  have hall := hmore (.noStatements (r := v))
  rwa [List.append_nil, ← List.append_nil more, ← hss, List.reverse_reverse] at hall

end Pieces

/-! ### Expressions, blocks and programs -/

theorem sound_expression_block (limit : Nat) :
    ExpressionSound (expression limit) ∧ BlockSound (block limit) := by
  induction limit with
  | zero =>
    constructor
    · intro p u e r _ _ h
      cases h
    · intro u₀ u body r _ _ h
      cases h
  | succ limit ih =>
    obtain ⟨hexpr, hblock⟩ := ih
    constructor
    · intro p u e r hp hu h
      obtain ⟨left, v, hleft, hruns, hstop⟩ := expression_ok.mp h
      obtain ⟨hv, q, hq, hnext, hleft⟩ := hleft.sound hexpr hblock hu
      have hadmits : p.Admits q := by
        rcases hq with rfl | rfl
        · exact .inr rfl
        · exact Precedence.admits_call hp
      obtain ⟨hr, q', hq', -, he⟩ := runs_carryOn_sound hexpr (shrinking_expression limit .lowest)
        hruns hv ⟨q, hadmits, hnext, hleft⟩
      exact ⟨hr, hstop, q', hq', he⟩
    · intro u₀ u body r hu hbrace h
      obtain ⟨v, hruns, hclose⟩ := block_ok.mp h
      obtain ⟨hv, hbody⟩ := statements_sound hexpr hblock hruns hu
      obtain ⟨hclose, hr⟩ := hclose.terminal hv
      exact ⟨hr, .block hbrace hbody hclose⟩

/-- **Soundness.**  A program that is read from well-formed tokens is derived by the
    grammar from all of them. -/
theorem program_sound {limit : Nat} {u r : List Token} {p : Program} (hu : Readable u)
    (h : program limit u = .ok (p, r)) : r = [] ∧ Derives (.statements p) u [] := by
  obtain ⟨hexpr, hblock⟩ := sound_expression_block limit
  obtain ⟨hruns, hend⟩ := program_ok.mp h
  obtain ⟨hr, hp⟩ := statements_sound hexpr hblock hruns hu
  cases r with
  | nil => exact ⟨rfl, hp⟩
  | cons t r =>
    have heof : t.kind = .eof := by simpa [endsProgram, kindOf] using hend
    exact absurd heof hr.head.ne_eof

end Treewalk.Parser
