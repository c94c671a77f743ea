/-
  Treewalk/Proofs/Parsing/Completeness.lean
  =========================================
  **All phrases of the grammar are read**, whatever follows them.

  A derived expression is met by the climbing loop in the middle of its work:
  from an operand it gets to the whole expression (`Phrase.Read`), and it can
  still go on from there.  That is what a left operand needs; a right operand
  needs in addition that the loop stops behind it.

  The limit on nesting is part of the statement: no phrase needs a limit above
  the number of its tokens.
-/
import Treewalk.Proofs.Parsing.Grammar
import Treewalk.Proofs.Parsing.Progress

namespace Treewalk

theorem Terminal.starts {k : Kind} {u r : List Token} (h : Terminal k u r) :
    Parser.Starts k u r := by
  obtain ⟨t, -, hk, hu⟩ := h
  exact ⟨t, hk, hu⟩

theorem NameToken.expect {u r : List Token} {x : String} (h : NameToken u x r) :
    Parser.expect .ident u = .ok (x, r) := by
  obtain ⟨t, -, hk, hx, hu⟩ := h
  exact Parser.expect_ok.mpr ⟨t, hk, hx, hu⟩

theorem Precedence.Admits.mono {p q q' : Precedence} (hp : p ≤ .unary) (h : p.Admits q)
    (hq : q ≤ q') : p.Admits q' := by
  rcases h with h | rfl
  · exact .inl (lt_of_lt_of_le h hq)
  · cases q' with
    | unary => exact .inr rfl
    | call => exact admits_call hp
    | lowest | equality | comparison | sum | product => exact absurd hq (by decide)

namespace Parser

/-! ### Items between parentheses -/

section Items

variable {α : Type} {item : Parser α} {R : List Token → α → List Token → Prop}

theorem runs_nextItem_of_moreSeparated (hitem : ∀ u x v, R u x v → item u = .ok (x, v))
    (xs : List α) {ys : List α} {u r : List Token} (h : MoreSeparated R u ys r) :
    ∃ w, Runs (nextItem item) xs u (ys.reverse ++ xs) w ∧ kindOf w ≠ .comma ∧
      Starts .rightParen w r := by
  induction h generalizing xs with
  | @done u r hclose =>
    refine ⟨u, .refl, ?_, hclose.starts⟩
    rw [hclose.kindOf]
    decide
  | @comma u v w r x ys hcomma hx _ ih =>
    obtain ⟨z, hruns, hno, hclose⟩ := ih (x :: xs)
    refine ⟨z, ?_, hno, hclose⟩
    rw [List.reverse_cons, List.append_assoc]
    exact .head (nextItem_some.mpr ⟨v, x, hcomma.starts, hitem v x w hx, rfl⟩) hruns

theorem commaSeparated_of_separated (hshrinking : Shrinking item)
    (hitem : ∀ u x v, R u x v → item u = .ok (x, v) ∧ kindOf u ≠ .rightParen)
    {xs : List α} {u r : List Token} (h : Separated R u xs r) :
    commaSeparated item u = .ok (xs, r) := by
  refine (commaSeparated_ok hshrinking).mpr ?_
  cases h with
  | none hclose => exact .inl ⟨hclose.starts, rfl⟩
  | some hx hmore =>
    obtain ⟨hread, hno⟩ := hitem _ _ _ hx
    obtain ⟨w, hruns, hno', hclose⟩ :=
      runs_nextItem_of_moreSeparated (fun u x v h => (hitem u x v h).1) [_] hmore
    exact .inr ⟨hno, _, _, _, w, hread, hruns, hno', hclose, by simp⟩

end Items

/-! ### What it is for a phrase to be read -/

/-- An expression that is read at the lowest precedence, as it stands in an argument list. -/
def ArgumentRead (limit : Nat) (u : List Token) (e : Expr) (r : List Token) : Prop :=
  expression limit .lowest u = .ok (e, r) ∧ kindOf u ≠ .rightParen

/-- The tokens that end a sequence of statements end a block or the text. -/
def EndsOnly (isEnd : Kind → Bool) : Prop := ∀ k, isEnd k = true → k = .rightBrace ∨ k = .eof

/-- The parser reads the tokens of a phrase as that phrase, within any limit that is not
    below the number of these tokens. -/
def PhraseRead : Phrase → List Token → List Token → Prop
  | .expression q e, u, r => ∀ limit p, u.length ≤ limit + 1 + r.length → p ≤ .unary →
      p.Admits q → (kindOf r).precedence ≤ q → kindOf r ≠ .elseWord →
      ∃ left v, OperandRead (expression limit) (block limit) u left v ∧
        Runs (carryOn (expression limit) p) left v e r
  | .arguments es, u, r => ∀ limit, u.length ≤ limit + r.length →
      Separated (ArgumentRead limit) u es r
  | .moreArguments es, u, r => ∀ limit, u.length ≤ limit + r.length →
      MoreSeparated (ArgumentRead limit) u es r
  | .block body, u, r => ∀ limit, u.length ≤ limit + 1 + r.length →
      ∃ v, Starts .leftBrace u v ∧ block limit v = .ok (body, r)
  | .otherwise other, u, r => ∀ limit, u.length ≤ limit + 1 + r.length →
      kindOf r ≠ .elseWord → OtherwiseRead (block limit) u other r
  | .statement s, u, r => ∀ limit, u.length ≤ limit + r.length → kindOf r ≠ .elseWord →
      ∃ v, (v = r ∨ Starts .semicolon r v) ∧
        statement (expression limit) (block limit) u = .ok (some s, v)
  | .statements ss, u, r => ∀ limit isEnd before, u.length ≤ limit + r.length →
      EndsOnly isEnd → isEnd (kindOf r) = true →
      Runs (nextStatement (expression limit) (block limit) isEnd) before u (ss.reverse ++ before) r

/-- An expression is read as a whole where nothing follows that binds tighter than the
    precedence asked for. -/
theorem PhraseRead.expression {q : Precedence} {e : Expr} {u r : List Token}
    (h : PhraseRead (.expression q e) u r) (limit : Nat) {p : Precedence}
    (hlimit : u.length ≤ limit + r.length) (hless : r.length < u.length) (hp : p ≤ .unary)
    (hadmits : p.Admits q) (hq : (kindOf r).precedence ≤ q) (hstop : (kindOf r).precedence ≤ p)
    (helse : kindOf r ≠ .elseWord) : Parser.expression limit p u = .ok (e, r) := by
  cases limit with
  | zero => omega
  | succ limit =>
    obtain ⟨left, v, hleft, hruns⟩ := h limit p hlimit hp hadmits hq helse
    exact expression_ok.mpr ⟨left, v, hleft, hruns, hstop⟩

/-- A token that carries no expression on and adds no second block to a choice. -/
def Closes (k : Kind) : Prop := k.precedence ≤ .lowest ∧ k ≠ .elseWord

instance (k : Kind) : Decidable (Closes k) := inferInstanceAs (Decidable (_ ∧ _))

theorem PhraseRead.lowest {e : Expr} {u r : List Token}
    (h : PhraseRead (.expression .equality e) u r) (limit : Nat)
    (hlimit : u.length ≤ limit + r.length) (hless : r.length < u.length)
    (hr : Closes (kindOf r)) : Parser.expression limit .lowest u = .ok (e, r) :=
  h.expression limit hlimit hless (by decide) (.inl (by decide))
    (Precedence.le_trans hr.1 (Precedence.lowest_le _)) hr.1 hr.2

/-- More arguments, or their end, follow an argument as a token of its own. -/
theorem closes_of_moreArguments {es : List Expr} {u r : List Token}
    (h : Derives (.moreArguments es) u r) : Closes (kindOf u) := by
  cases h with
  | argumentsDone hk | argumentsComma hk =>
    rw [hk.kindOf]
    decide

theorem ArgumentRead.of_phraseRead {e : Expr} {u r : List Token}
    (h : PhraseRead (.expression .equality e) u r) (he : Derives (.expression .equality e) u r)
    {limit : Nat} (hlimit : u.length ≤ limit + r.length) (hr : Closes (kindOf r)) :
    ArgumentRead limit u e r := by
  refine ⟨h.lowest limit hlimit he.longer hr, ?_⟩
  have hstart : (kindOf u).startsExpression = true := he.startsWith
  intro hk
  rw [hk] at hstart
  cases hstart

theorem EndsOnly.eq_false {isEnd : Kind → Bool} (h : EndsOnly isEnd) {k : Kind}
    (hbrace : k ≠ .rightBrace) (heof : k ≠ .eof) : isEnd k = false := by
  cases hk : isEnd k with
  | false => rfl
  | true =>
    rcases h k hk with h | h
    · exact absurd h hbrace
    · exact absurd h heof

theorem startsOther_of_startsExpression {k : Kind} (h : k.startsExpression = true) :
    startsOther k = false := by
  revert h
  cases k <;> decide

theorem endsOnly_endsBlock : EndsOnly endsBlock := by
  intro k hk
  simpa [endsBlock] using hk

theorem endsOnly_endsProgram : EndsOnly endsProgram := by
  intro k hk
  exact .inr (by simpa [endsProgram] using hk)

/-! ### Every derived phrase is read -/

/-- One statement in front of statements: also where it leaves a semicolon to be skipped that
    the parser takes as its own. -/
theorem runs_nextStatement_cons {limit : Nat} {isEnd : Kind → Bool} (hends : EndsOnly isEnd)
    {s : Stmt} {u v r : List Token} {before after : List Stmt}
    (hstart : (kindOf u).startsStatement = true)
    (hs : ∃ w, (w = v ∨ Starts .semicolon v w) ∧
      statement (expression limit) (block limit) u = .ok (some s, w))
    (hend : isEnd (kindOf r) = true)
    (hruns : Runs (nextStatement (expression limit) (block limit) isEnd) (s :: before) v after r) :
    Runs (nextStatement (expression limit) (block limit) isEnd) before u after r := by
  have hgoes : isEnd (kindOf u) = false := by
    refine hends.eq_false ?_ ?_ <;>
    · intro hk
      rw [hk] at hstart
      cases hstart
  obtain ⟨w, hw, hs⟩ := hs
  have hstep : nextStatement (expression limit) (block limit) isEnd before u =
      .ok (some (s :: before), w) := nextStatement_some.mpr ⟨hgoes, some s, hs, rfl⟩
  rcases hw with rfl | hsemicolon
  · exact .head hstep hruns
  · refine .head hstep ?_
    -- the steps from `v` on begin with the one that skips the semicolon
    cases hruns with
    | refl => rcases hends _ hend with h | h <;> simp [hsemicolon.kindOf] at h
    | head hskip hruns =>
      obtain ⟨-, o, ho, rfl⟩ := nextStatement_some.mp hskip
      have heq : statement (expression limit) (block limit) v = .ok (none, w) :=
        statement_ok.mpr (.inr (.inr (.inr (.inl ⟨hsemicolon, rfl⟩))))
      rw [heq] at ho
      cases ho
      exact hruns

namespace PhraseRead

/-! One lemma for each rule of the grammar that does more than to hand on what is read. -/

variable {t : Token} {u u₀ u₁ u₂ u₃ u₄ u₅ v w r : List Token} {e : Expr} {body : Block}

/-- The loop goes on from the left operand, and stops behind the right one. -/
theorem binary {q : Precedence} {left right : Expr} (hk : t.kind.continuation? = some .operator)
    (hleft : Derives (.expression t.kind.precedence left) u (t :: v))
    (hq : t.kind.precedence < q) (hright : Derives (.expression q right) v r)
    (ihl : PhraseRead (.expression t.kind.precedence left) u (t :: v))
    (ihr : PhraseRead (.expression q right) v r) :
    PhraseRead (.expression t.kind.precedence (.binary left t.text right)) u r := by
  intro limit p hlimit hp hadmits hnext helse
  have hunary := Kind.precedence_lt_unary_of_operator hk
  have hpk : p < t.kind.precedence := by
    rcases hadmits with h | h
    · exact h
    · rw [h] at hunary
      exact absurd hunary (by decide)
  have hl := hleft.longer
  have hr := hright.longer
  simp only [Longer, Phrase.least, List.length_cons] at hl hr
  have hop : kindOf (t :: v) ≠ .elseWord := by
    show t.kind ≠ .elseWord
    intro h
    rw [h] at hk
    cases hk
  obtain ⟨e, w, hoperand, hruns⟩ := ihl limit p (by simp only [List.length_cons]; omega) hp
    hadmits (Precedence.le_refl _) hop
  have hright := ihr.expression limit (p := t.kind.precedence) (by omega) (by omega)
    (Precedence.le_of_lt hunary) (.inl hq)
    (Precedence.le_trans hnext (Precedence.le_of_lt hq)) hnext helse
  exact ⟨e, w, hoperand,
    hruns.tail (carryOn_some.mpr ⟨t, v, rfl, hpk, .inl ⟨hk, right, hright, rfl⟩⟩)⟩

theorem unary (hk : t.kind.isUnary = true) (he : Derives (.expression .unary e) u r)
    (ih : PhraseRead (.expression .unary e) u r) :
    PhraseRead (.expression .unary (.unary t.text e)) (t :: u) r := by
  intro limit p hlimit hp hadmits hnext helse
  have hlen := he.longer
  simp only [Phrase.least] at hlen
  simp only [List.length_cons] at hlimit
  have he := ih.expression limit (p := .unary) (by omega) (by omega) (by decide)
    (.inr rfl) hnext hnext helse
  exact ⟨_, _, .unary hk he, .refl⟩

theorem call {callee : Expr} {args : List Expr} (hcallee : Derives (.expression .call callee) u v)
    (hopen : Terminal .leftParen v w) (hargs : Derives (.arguments args) w r)
    (ihc : PhraseRead (.expression .call callee) u v) (iha : PhraseRead (.arguments args) w r) :
    PhraseRead (.expression .call (.call callee args)) u r := by
  intro limit p hlimit hp hadmits hnext helse
  have hc := hcallee.longer
  have ha := hargs.longer
  have ho := hopen.longer
  simp only [Phrase.least] at hc ha
  have hkind := hopen.kindOf
  obtain ⟨e, z, hoperand, hruns⟩ := ihc limit p (by omega) hp hadmits
    (Precedence.le_call _) (by rw [hkind]; decide)
  have hargs := commaSeparated_of_separated (shrinking_expression limit .lowest)
    (fun _ _ _ h => h) (iha limit (by omega))
  obtain ⟨t, -, hk, rfl⟩ := hopen
  have hpk : p < t.kind.precedence := by
    rw [hk]
    exact Precedence.lt_of_lt_of_le (Nat.lt_succ_of_le hp) (Precedence.le_refl .call)
  exact ⟨e, z, hoperand,
    hruns.tail (carryOn_some.mpr ⟨t, w, rfl, hpk, .inr ⟨hk, args, hargs, rfl⟩⟩)⟩

theorem group (hopen : Terminal .leftParen u v) (he : Derives (.expression .equality e) v w)
    (hclose : Terminal .rightParen w r) (ih : PhraseRead (.expression .equality e) v w) :
    PhraseRead (.expression .call e) u r := by
  intro limit p hlimit hp _ _ _
  have hlen := he.longer
  have ho := hopen.longer
  have hc := hclose.longer
  simp only [Phrase.least] at hlen
  have hread := ih.lowest limit (by omega) he.longer (by rw [hclose.kindOf]; decide)
  obtain ⟨t, -, hk, rfl⟩ := hopen
  exact ⟨_, _, .group hk (group_ok.mpr ⟨w, hread, hclose.starts⟩), .refl⟩

theorem choice {other : Option Block} (hif : Terminal .ifWord u₀ u₁)
    (hopen : Terminal .leftParen u₁ u₂) (htest : Derives (.expression .equality e) u₂ u₃)
    (hclose : Terminal .rightParen u₃ u₄) (hbody : Derives (.block body) u₄ u₅)
    (hother : Derives (.otherwise other) u₅ r)
    (iht : PhraseRead (.expression .equality e) u₂ u₃) (ihb : PhraseRead (.block body) u₄ u₅)
    (iho : PhraseRead (.otherwise other) u₅ r) :
    PhraseRead (.expression .call (.cond e body other)) u₀ r := by
  intro limit p hlimit hp _ _ helse
  have hi := hif.longer
  have ho := hopen.longer
  have ht := htest.longer
  have hc := hclose.longer
  have hb := hbody.longer
  have hr := hother.longer
  simp only [Phrase.least] at ht hb hr
  have htest := iht.lowest limit (by omega) htest.longer (by rw [hclose.kindOf]; decide)
  obtain ⟨w, hbrace, hbody⟩ := ihb limit (by omega)
  have hother := iho limit (by omega) helse
  obtain ⟨t, -, hk, rfl⟩ := hif
  exact ⟨_, _, .choice hk (choice_ok.mpr ⟨u₂, e, u₃, u₄, w, body, u₅, other, hopen.starts,
    htest, hclose.starts, hbrace, hbody, hother, rfl⟩), .refl⟩

theorem function {params : List String} (hfn : Terminal .fnWord u₀ u₁)
    (hopen : Terminal .leftParen u₁ u₂) (hparams : Separated NameToken u₂ params u₃)
    (ih : PhraseRead (.block body) u₃ r) :
    PhraseRead (.expression .call (.fn params body)) u₀ r := by
  intro limit p hlimit hp _ _ _
  have hf := hfn.longer
  have ho := hopen.longer
  have hl := hparams.longer fun _ _ _ h => h.longer
  obtain ⟨w, hbrace, hbody⟩ := ih limit (by omega)
  have hparams := commaSeparated_of_separated (shrinking_expect .ident)
    (fun _ _ _ h => ⟨h.expect, by rw [h.kindOf]; decide⟩) hparams
  obtain ⟨t, -, hk, rfl⟩ := hfn
  exact ⟨_, _, .function hk (function_ok.mpr ⟨u₂, params, u₃, w, body, hopen.starts, hparams,
    hbrace, hbody, rfl⟩), .refl⟩

theorem someArguments {es : List Expr} (he : Derives (.expression .equality e) u v)
    (hes : Derives (.moreArguments es) v r) (ihe : PhraseRead (.expression .equality e) u v)
    (ihes : PhraseRead (.moreArguments es) v r) : PhraseRead (.arguments (e :: es)) u r := by
  intro limit hlimit
  have hl := he.longer
  have hl' := hes.longer
  simp only [Phrase.least] at hl hl'
  exact .some (.of_phraseRead ihe he (by omega) (closes_of_moreArguments hes))
    (ihes limit (by omega))

theorem argumentsComma {es : List Expr} (hcomma : Terminal .comma u v)
    (he : Derives (.expression .equality e) v w) (hes : Derives (.moreArguments es) w r)
    (ihe : PhraseRead (.expression .equality e) v w) (ihes : PhraseRead (.moreArguments es) w r) :
    PhraseRead (.moreArguments (e :: es)) u r := by
  intro limit hlimit
  have hc := hcomma.longer
  have hl := he.longer
  have hl' := hes.longer
  simp only [Phrase.least] at hl hl'
  exact .comma hcomma (.of_phraseRead ihe he (by omega) (closes_of_moreArguments hes))
    (ihes limit (by omega))

theorem block (hopen : Terminal .leftBrace u v) (hbody : Derives (.statements body) v w)
    (hclose : Terminal .rightBrace w r) (ih : PhraseRead (.statements body) v w) :
    PhraseRead (.block body) u r := by
  intro limit hlimit
  have ho := hopen.longer
  have hc := hclose.longer
  have hb := hbody.longer
  refine ⟨v, hopen.starts, ?_⟩
  cases limit with
  | zero => omega
  | succ limit =>
    have hruns := ih limit endsBlock [] (by omega) endsOnly_endsBlock
      (by rw [hclose.kindOf]; rfl)
    rw [List.append_nil] at hruns
    exact block_ok.mpr ⟨w, hruns, hclose.starts⟩

theorem someOtherwise (hk : Terminal .elseWord u v) (ih : PhraseRead (.block body) v r) :
    PhraseRead (.otherwise (some body)) u r := by
  intro limit hlimit _
  have := hk.longer
  obtain ⟨w, hbrace, hbody⟩ := ih limit (by omega)
  exact .inr ⟨v, w, body, hk.starts, hbrace, hbody, rfl⟩

theorem define {x : String} (hlet : Terminal .letWord u₀ u₁) (hname : NameToken u₁ x u₂)
    (hassign : Terminal .assign u₂ u₃) (he : Derives (.expression .equality e) u₃ u₄)
    (hend : Terminal .semicolon u₄ r) (ih : PhraseRead (.expression .equality e) u₃ u₄) :
    PhraseRead (.statement (.define x e)) u₀ r := by
  intro limit hlimit _
  have hl := hlet.longer
  have hn := hname.longer
  have ha := hassign.longer
  have hs := hend.longer
  have hread := ih.lowest limit (by omega) he.longer (by rw [hend.kindOf]; decide)
  exact ⟨_, .inl rfl, statement_ok.mpr (.inl ⟨_, _, hlet.starts, definition_ok.mpr
    ⟨_, _, _, _, _, hname.expect, hassign.starts, hread, hend.starts, rfl⟩, rfl⟩)⟩

theorem ret (hreturn : Terminal .returnWord u v) (he : Derives (.expression .equality e) v w)
    (hend : Terminal .semicolon w r) (ih : PhraseRead (.expression .equality e) v w) :
    PhraseRead (.statement (.ret e)) u r := by
  intro limit hlimit _
  have hl := hreturn.longer
  have hs := hend.longer
  have hread := ih.lowest limit (by omega) he.longer (by rw [hend.kindOf]; decide)
  have hno : kindOf v ≠ .semicolon := by
    have hstart : (kindOf v).startsExpression = true := he.startsWith
    intro hk
    rw [hk] at hstart
    cases hstart
  exact ⟨_, .inl rfl, statement_ok.mpr (.inr (.inl ⟨_, _, hreturn.starts,
    returned_ok.mpr (.inr ⟨hno, e, w, hread, hend.starts, rfl⟩), rfl⟩))⟩

/-- An expression as a statement, whatever the parser does about a semicolon behind it. -/
theorem expressionStatement {limit : Nat} (he : Derives (.expression .equality e) u v)
    (hread : Parser.expression limit .lowest u = .ok (e, v))
    (hend : Starts .semicolon v r ∨ kindOf v ≠ .semicolon ∧ r = v) :
    statement (Parser.expression limit) (Parser.block limit) u = .ok (some (.expr e), r) :=
  statement_ok.mpr (.inr (.inr (.inr (.inr ⟨startsOther_of_startsExpression he.startsWith,
    .expr e, expressionStatement_ok.mpr ⟨e, v, hread, hend, rfl⟩, rfl⟩))))

theorem closed (he : Derives (.expression .equality e) u v) (hend : Terminal .semicolon v r)
    (ih : PhraseRead (.expression .equality e) u v) : PhraseRead (.statement (.expr e)) u r := by
  intro limit hlimit _
  have hs := hend.longer
  have hread := ih.lowest limit (by omega) he.longer (by rw [hend.kindOf]; decide)
  exact ⟨r, .inl rfl, expressionStatement he hread (.inl hend.starts)⟩

theorem bare (he : Derives (.expression .equality e) u r)
    (hno : (kindOf r).continuation? = none) (ih : PhraseRead (.expression .equality e) u r) :
    PhraseRead (.statement (.expr e)) u r := by
  intro limit hlimit helse
  have hlow := (Kind.continuation?_eq_none_iff _).mp hno
  have hread := ih.lowest limit hlimit he.longer ⟨hlow, helse⟩
  by_cases hk : kindOf r = .semicolon
  -- The parser takes for its own a semicolon that the grammar leaves to be skipped.
  · have hsemicolon := starts_of_kindOf (by decide) hk
    exact ⟨r.tail, .inr hsemicolon, expressionStatement he hread (.inl hsemicolon)⟩
  · exact ⟨r, .inl rfl, expressionStatement he hread (.inr ⟨hk, rfl⟩)⟩

theorem skip {ss : List Stmt} (hskip : Terminal .semicolon u v)
    (ih : PhraseRead (.statements ss) v r) : PhraseRead (.statements ss) u r := by
  intro limit isEnd before hlimit hends hend
  have hl := hskip.longer
  have hgoes : isEnd (kindOf u) = false := by
    refine hends.eq_false ?_ ?_ <;> rw [hskip.kindOf] <;> decide
  have hnone : statement (Parser.expression limit) (Parser.block limit) u = .ok (none, v) :=
    statement_ok.mpr (.inr (.inr (.inr (.inl ⟨hskip.starts, rfl⟩))))
  exact .head (nextStatement_some.mpr ⟨hgoes, none, hnone, rfl⟩)
    (ih limit isEnd before (by omega) hends hend)

theorem cons {s : Stmt} {ss : List Stmt} (hs : Derives (.statement s) u v)
    (hss : Derives (.statements ss) v r) (ihs : PhraseRead (.statement s) u v)
    (ihss : PhraseRead (.statements ss) v r) : PhraseRead (.statements (s :: ss)) u r := by
  intro limit isEnd before hlimit hends hend
  have hl := hs.longer
  have hl' := hss.longer
  simp only [Phrase.least] at hl hl'
  have helse : kindOf r ≠ .elseWord := by
    rcases hends _ hend with h | h <;> rw [h] <;> decide
  have hruns := ihss limit isEnd (s :: before) (by omega) hends hend
  rw [List.reverse_cons, List.append_assoc]
  exact runs_nextStatement_cons hends hs.startsWith
    (ihs limit (by omega) (hss.kindOf_ne_else helse)) hend hruns

end PhraseRead

end Parser

open Treewalk.Parser

theorem Derives.read {φ : Phrase} {u r : List Token} (h : Derives φ u r) : PhraseRead φ u r := by
  induction h with
  | descend hq _ ih =>
    intro limit p hlimit hp hadmits hnext helse
    exact ih limit p hlimit hp (hadmits.mono hp hq) (Precedence.le_trans hnext hq) helse
  | binary _ hk hleft hq hright ihl ihr => exact .binary hk hleft hq hright ihl ihr
  | unary _ hk he ih => exact .unary hk he ih
  | call hcallee hopen hargs ihc iha => exact .call hcallee hopen hargs ihc iha
  | ident hname =>
    intro limit p _ _ _ _ _
    obtain ⟨t, -, hk, rfl, rfl⟩ := hname
    exact ⟨_, _, .ident hk, .refl⟩
  | int ht hk hle =>
    intro limit p _ _ _ _ _
    have hv := (Number.ofNumeral?_eq_some_iff (ht.isNumeral hk).2 _).mpr ⟨rfl, hle⟩
    exact ⟨_, _, .int hk hv, .refl⟩
  | yes hk =>
    intro limit p _ _ _ _ _
    obtain ⟨t, -, hk, rfl⟩ := hk
    exact ⟨_, _, .yes hk, .refl⟩
  | no hk =>
    intro limit p _ _ _ _ _
    obtain ⟨t, -, hk, rfl⟩ := hk
    exact ⟨_, _, .no hk, .refl⟩
  | group hopen he hclose ih => exact .group hopen he hclose ih
  | choice hif hopen htest hclose hbody hother iht ihb iho =>
    exact .choice hif hopen htest hclose hbody hother iht ihb iho
  | function hfn hopen hparams _ ih => exact .function hfn hopen hparams ih
  | noArguments hclose => exact fun limit _ => .none hclose
  | someArguments he hes ihe ihes => exact .someArguments he hes ihe ihes
  | argumentsDone hclose => exact fun limit _ => .done hclose
  | argumentsComma hcomma he hes ihe ihes => exact .argumentsComma hcomma he hes ihe ihes
  | block hopen hbody hclose ih => exact .block hopen hbody hclose ih
  | noOtherwise => exact fun limit _ helse => .inl ⟨helse, rfl, rfl⟩
  | someOtherwise hk _ ih => exact .someOtherwise hk ih
  | define hlet hname hassign he hend ih => exact .define hlet hname hassign he hend ih
  | bareReturn hreturn hend =>
    intro limit _ _
    exact ⟨_, .inl rfl, statement_ok.mpr (.inr (.inl ⟨_, _, hreturn.starts,
      returned_ok.mpr (.inl ⟨hend.starts, rfl⟩), rfl⟩))⟩
  | ret hreturn he hend ih => exact .ret hreturn he hend ih
  | blockStatement _ ih =>
    intro limit hlimit _
    obtain ⟨v, hbrace, hbody⟩ := ih limit (by omega)
    exact ⟨_, .inl rfl, statement_ok.mpr (.inr (.inr (.inl ⟨v, _, hbrace, hbody, rfl⟩)))⟩
  | closed he hend ih => exact .closed he hend ih
  | bare he hno ih => exact .bare he hno ih
  | noStatements => exact fun limit isEnd before _ _ _ => .refl
  | skip hskip _ ih => exact .skip hskip ih
  | cons hs hss ihs ihss => exact .cons hs hss ihs ihss

/-- **Completeness.**  A program that the grammar derives from all tokens is read within any
    limit that is not below their number. -/
theorem Derives.program_ok {p : Program} {u : List Token} (h : Derives (.statements p) u [])
    {limit : Nat} (hlimit : u.length ≤ limit) : Parser.program limit u = .ok (p, []) := by
  have hruns := h.read limit endsProgram [] hlimit endsOnly_endsProgram rfl
  rw [List.append_nil] at hruns
  exact Parser.program_ok.mpr ⟨hruns, rfl⟩

end Treewalk
