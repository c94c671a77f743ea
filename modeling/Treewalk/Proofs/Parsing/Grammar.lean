/-
  Treewalk/Proofs/Parsing/Grammar.lean
  ====================================
  **The grammar of the language**, as a relation between token sequences and
  trees that says nothing about how they are read.

      Program    = Statement*
      Statement  = ';' | 'let' NAME '=' Expression ';'
                 | 'return' ';' | 'return' Expression ';'
                 | Block | Expression ';' | Expression
      Block      = '{' Statement* '}'
      Expression = one of the strata of binary operators, each grouping to the left:
                   (== !=) below (< >) below (+ -) below (* /) below Unary
      Unary      = ('!' | '-') Unary | Call
      Call       = Primary | Call '(' [Expression {',' Expression}] ')'
      Primary    = NAME | NUMERAL | 'true' | 'false' | '(' Expression ')'
                 | 'if' '(' Expression ')' Block ['else' Block]
                 | 'fn' '(' [NAME {',' NAME}] ')' Block

  A lone semicolon and the parentheses around an expression leave no node.  An
  expression without a semicolon is a statement only where no token follows
  that would carry it on.

  `Derives φ u r` says that the tokens of `u` in front of `r` make the phrase
  `φ`.  Keeping what follows in the relation is what lets the last rule be
  stated, and no rule has to split a sequence in two.
-/
import Treewalk.Parser.Basic
import Treewalk.Proofs.Numeral
import Treewalk.Proofs.Parsing.Strata
import Treewalk.Proofs.Scanning.WellFormed
import Treewalk.Tree.Basic

namespace Treewalk

open Treewalk.Parser (kindOf)

/-! ### Phrases -/

/-- A phrase of the grammar: a nonterminal, and the tree of what it stands for. -/
inductive Phrase where
  /-- An expression of the stratum of a precedence. -/
  | expression (p : Precedence) (tree : Expr)
  /-- Arguments and their closing parenthesis, behind the opening one. -/
  | arguments (trees : List Expr)
  /-- What follows an argument: a comma and more arguments, or the closing parenthesis. -/
  | moreArguments (trees : List Expr)
  /-- A block with its braces. -/
  | block (body : Block)
  /-- The second block of a choice, which may be missing. -/
  | otherwise (body : Option Block)
  | statement (tree : Stmt)
  | statements (trees : List Stmt)

/-- `u` is a token of the given kind with `r` behind it. -/
def Terminal (k : Kind) (u r : List Token) : Prop :=
  ∃ t : Token, t.WellFormed ∧ t.kind = k ∧ u = t :: r

/-- `u` is the name `x` with `r` behind it. -/
def NameToken (u : List Token) (x : String) (r : List Token) : Prop :=
  ∃ t : Token, t.WellFormed ∧ t.kind = .ident ∧ t.text = x ∧ u = t :: r

/-- What follows the first of several items between parentheses. -/
inductive MoreSeparated {α : Type} (R : List Token → α → List Token → Prop) :
    List Token → List α → List Token → Prop where
  | done {u r} : Terminal .rightParen u r → MoreSeparated R u [] r
  | comma {u v w r x xs} : Terminal .comma u v → R v x w → MoreSeparated R w xs r →
      MoreSeparated R u (x :: xs) r

/-- Items with commas between them and the closing parenthesis. -/
inductive Separated {α : Type} (R : List Token → α → List Token → Prop) :
    List Token → List α → List Token → Prop where
  | none {u r} : Terminal .rightParen u r → Separated R u [] r
  | some {u v r x xs} : R u x v → MoreSeparated R v xs r → Separated R u (x :: xs) r

/-- The tokens of `u` in front of `r` make a phrase. -/
inductive Derives : Phrase → List Token → List Token → Prop where
  /-- What binds tighter may stand where something looser may. -/
  | descend {p q u r e} : p ≤ q → Derives (.expression q e) u r → Derives (.expression p e) u r
  | binary {t u v r q left right} : t.WellFormed → t.kind.continuation? = some .operator →
      Derives (.expression t.kind.precedence left) u (t :: v) → t.kind.precedence < q →
      Derives (.expression q right) v r →
      Derives (.expression t.kind.precedence (.binary left t.text right)) u r
  | unary {t u r e} : t.WellFormed → t.kind.isUnary = true →
      Derives (.expression .unary e) u r →
      Derives (.expression .unary (.unary t.text e)) (t :: u) r
  | call {u v w r callee args} : Derives (.expression .call callee) u v →
      Terminal .leftParen v w → Derives (.arguments args) w r →
      Derives (.expression .call (.call callee args)) u r
  | ident {u r x} : NameToken u x r → Derives (.expression .call (.ident x)) u r
  | int {t r} : t.WellFormed → t.kind = .int →
      (Number.decimal t.text.toList : Int) ≤ Number.greatest →
      Derives (.expression .call (.int (Number.decimal t.text.toList))) (t :: r) r
  | yes {u r} : Terminal .trueWord u r → Derives (.expression .call (.bool true)) u r
  | no {u r} : Terminal .falseWord u r → Derives (.expression .call (.bool false)) u r
  | group {u v w r e} : Terminal .leftParen u v → Derives (.expression .equality e) v w →
      Terminal .rightParen w r → Derives (.expression .call e) u r
  | choice {u₀ u₁ u₂ u₃ u₄ u₅ r test body other} : Terminal .ifWord u₀ u₁ →
      Terminal .leftParen u₁ u₂ → Derives (.expression .equality test) u₂ u₃ →
      Terminal .rightParen u₃ u₄ → Derives (.block body) u₄ u₅ →
      Derives (.otherwise other) u₅ r → Derives (.expression .call (.cond test body other)) u₀ r
  | function {u₀ u₁ u₂ u₃ r params body} : Terminal .fnWord u₀ u₁ →
      Terminal .leftParen u₁ u₂ → Separated NameToken u₂ params u₃ →
      Derives (.block body) u₃ r → Derives (.expression .call (.fn params body)) u₀ r
  | noArguments {u r} : Terminal .rightParen u r → Derives (.arguments []) u r
  | someArguments {u v r e es} : Derives (.expression .equality e) u v →
      Derives (.moreArguments es) v r → Derives (.arguments (e :: es)) u r
  | argumentsDone {u r} : Terminal .rightParen u r → Derives (.moreArguments []) u r
  | argumentsComma {u v w r e es} : Terminal .comma u v →
      Derives (.expression .equality e) v w → Derives (.moreArguments es) w r →
      Derives (.moreArguments (e :: es)) u r
  | block {u v w r body} : Terminal .leftBrace u v → Derives (.statements body) v w →
      Terminal .rightBrace w r → Derives (.block body) u r
  | noOtherwise {r} : Derives (.otherwise none) r r
  | someOtherwise {u v r body} : Terminal .elseWord u v → Derives (.block body) v r →
      Derives (.otherwise (some body)) u r
  | define {u₀ u₁ u₂ u₃ u₄ r x e} : Terminal .letWord u₀ u₁ → NameToken u₁ x u₂ →
      Terminal .assign u₂ u₃ → Derives (.expression .equality e) u₃ u₄ →
      Terminal .semicolon u₄ r → Derives (.statement (.define x e)) u₀ r
  | bareReturn {u v r} : Terminal .returnWord u v → Terminal .semicolon v r →
      Derives (.statement (.ret .empty)) u r
  | ret {u v w r e} : Terminal .returnWord u v → Derives (.expression .equality e) v w →
      Terminal .semicolon w r → Derives (.statement (.ret e)) u r
  | blockStatement {u r body} : Derives (.block body) u r → Derives (.statement (.block body)) u r
  | closed {u v r e} : Derives (.expression .equality e) u v → Terminal .semicolon v r →
      Derives (.statement (.expr e)) u r
  /-- The side condition: nothing follows that would carry the expression on. -/
  | bare {u r e} : Derives (.expression .equality e) u r → (kindOf r).continuation? = none →
      Derives (.statement (.expr e)) u r
  | noStatements {r} : Derives (.statements []) r r
  | skip {u v r ss} : Terminal .semicolon u v → Derives (.statements ss) v r →
      Derives (.statements ss) u r
  | cons {u v r s ss} : Derives (.statement s) u v → Derives (.statements ss) v r →
      Derives (.statements (s :: ss)) u r

/-! ### How long phrases are -/

/-- `u` has at least `n` tokens more than `r`. -/
abbrev Longer (n : Nat) (u r : List Token) : Prop := r.length + n ≤ u.length

theorem Longer.trans {n k : Nat} {u v r : List Token} (h : Longer n u v) (h' : Longer k v r) :
    Longer (n + k) u r := by
  omega

theorem Longer.weaken {n k : Nat} {u r : List Token} (h : Longer n u r) (hk : k ≤ n) :
    Longer k u r := by
  omega

theorem Terminal.longer {k : Kind} {u r : List Token} (h : Terminal k u r) : Longer 1 u r := by
  obtain ⟨t, -, -, rfl⟩ := h
  exact Nat.le_refl _

theorem NameToken.longer {u r : List Token} {x : String} (h : NameToken u x r) :
    Longer 1 u r := by
  obtain ⟨t, -, -, -, rfl⟩ := h
  exact Nat.le_refl _

theorem Separated.longer {α : Type} {R : List Token → α → List Token → Prop}
    (hR : ∀ u x v, R u x v → Longer 1 u v) {u r : List Token} {xs : List α}
    (h : Separated R u xs r) : Longer 1 u r := by
  have hmore : ∀ {u xs r}, MoreSeparated R u xs r → Longer 1 u r := by
    intro u xs r h
    induction h with
    | done hclose => exact hclose.longer
    | comma hcomma hx _ ih =>
      exact (hcomma.longer.trans ((hR _ _ _ hx).trans ih)).weaken (by simp)
  cases h with
  | none hclose => exact hclose.longer
  | some hx h => exact ((hR _ _ _ hx).trans (hmore h)).weaken (by simp)

def Phrase.least : Phrase → Nat
  | expression _ _ | statement _ | arguments _ | moreArguments _ => 1
  | block _ => 2
  | otherwise _ | statements _ => 0

theorem Derives.longer {φ : Phrase} {u r : List Token} (h : Derives φ u r) :
    Longer φ.least u r := by
  have hcons (t : Token) (u : List Token) : Longer 1 (t :: u) u := Nat.le_refl _
  have hrefl (u : List Token) : Longer 0 u u := Nat.le_refl _
  induction h with
  | descend _ _ ih => exact ih
  | binary _ _ _ _ _ ih ih' =>
    exact (ih.trans ((hcons _ _).trans ih')).weaken (by simp [Phrase.least])
  | unary _ _ _ ih => exact ((hcons _ _).trans ih).weaken (by simp [Phrase.least])
  | call _ hopen _ ih ih' =>
    exact (ih.trans (hopen.longer.trans ih')).weaken (by simp [Phrase.least])
  | ident hname => exact hname.longer
  | int => exact hcons _ _
  | yes hk | no hk | noArguments hk | argumentsDone hk => exact hk.longer
  | group hopen _ hclose ih =>
    exact (hopen.longer.trans (ih.trans hclose.longer)).weaken (by simp [Phrase.least])
  | choice hif hopen _ hclose _ _ ih ih' ih'' =>
    have htest := hif.longer.trans (hopen.longer.trans (ih.trans hclose.longer))
    exact (htest.trans (ih'.trans ih'')).weaken (by simp [Phrase.least])
  | function hfn hopen hparams _ ih =>
    have hnames := hparams.longer fun _ _ _ h => h.longer
    exact (hfn.longer.trans (hopen.longer.trans (hnames.trans ih))).weaken (by simp [Phrase.least])
  | someArguments _ _ ih ih' => exact (ih.trans ih').weaken (by simp [Phrase.least])
  | argumentsComma hcomma _ _ ih ih' =>
    exact (hcomma.longer.trans (ih.trans ih')).weaken (by simp [Phrase.least])
  | block hopen _ hclose ih =>
    exact (hopen.longer.trans (ih.trans hclose.longer)).weaken (by simp [Phrase.least])
  | noOtherwise | noStatements => exact hrefl _
  | someOtherwise helse _ ih => exact (helse.longer.trans ih).weaken (by simp [Phrase.least])
  | define hlet hname hassign _ hend ih =>
    have hname := hlet.longer.trans (hname.longer.trans hassign.longer)
    exact (hname.trans (ih.trans hend.longer)).weaken (by simp [Phrase.least])
  | bareReturn hreturn hend =>
    exact (hreturn.longer.trans hend.longer).weaken (by simp [Phrase.least])
  | ret hreturn _ hend ih =>
    exact (hreturn.longer.trans (ih.trans hend.longer)).weaken (by simp [Phrase.least])
  | blockStatement _ ih => exact ih.weaken (by simp [Phrase.least])
  | closed _ hend ih => exact (ih.trans hend.longer).weaken (by simp [Phrase.least])
  | bare _ _ ih => exact ih
  | skip hskip _ ih => exact (hskip.longer.trans ih).weaken (by simp [Phrase.least])
  | cons _ _ ih ih' => exact (ih.trans ih').weaken (by simp [Phrase.least])

/-! ### How phrases start -/

def Kind.startsExpression : Kind → Bool
  | ident | int | trueWord | falseWord | bang | minus | leftParen | ifWord | fnWord => true
  | _ => false

def Kind.startsStatement (k : Kind) : Bool :=
  k.startsExpression || k == .letWord || k == .returnWord || k == .leftBrace

/-- The tokens that start a phrase of a sort that is never empty; no other sort is asked. -/
def Phrase.startsWith : Phrase → Kind → Bool
  | expression _ _, k => k.startsExpression
  | statement _, k => k.startsStatement
  | block _, k => k == .leftBrace
  | _, _ => true

theorem Terminal.kindOf {k : Kind} {u r : List Token} (h : Terminal k u r) : kindOf u = k := by
  obtain ⟨t, -, rfl, rfl⟩ := h
  rfl

theorem NameToken.kindOf {u r : List Token} {x : String} (h : NameToken u x r) :
    Parser.kindOf u = .ident := by
  obtain ⟨t, -, hk, -, rfl⟩ := h
  exact hk

theorem Derives.startsWith {φ : Phrase} {u r : List Token} (h : Derives φ u r) :
    φ.startsWith (kindOf u) = true := by
  induction h with
  | descend _ _ ih | binary _ _ _ _ _ ih | call _ _ _ ih => exact ih
  | @unary t u r e _ hk _ _ =>
    show t.kind.startsExpression = true
    revert hk
    cases t.kind <;> decide
  | ident hname => simp [Phrase.startsWith, hname.kindOf, Kind.startsExpression]
  | int _ hk => simp [Phrase.startsWith, Parser.kindOf, hk, Kind.startsExpression]
  | yes hk | no hk | group hk | choice hk | function hk =>
    simp [Phrase.startsWith, hk.kindOf, Kind.startsExpression]
  | block hk => simp [Phrase.startsWith, hk.kindOf]
  | define hk | bareReturn hk | ret hk =>
    simp [Phrase.startsWith, hk.kindOf, Kind.startsStatement]
  | blockStatement _ ih =>
    simp only [Phrase.startsWith] at ih ⊢
    simp [Kind.startsStatement, ih]
  | closed _ _ ih | bare _ _ ih =>
    simp only [Phrase.startsWith] at ih ⊢
    simp [Kind.startsStatement, ih]
  | noArguments | someArguments | argumentsDone | argumentsComma | noOtherwise | someOtherwise
  | noStatements | skip | cons => rfl

/-- No statement starts with `else`, so none that follows a choice can be taken for its
    second block. -/
theorem Derives.kindOf_ne_else {ss : List Stmt} {u r : List Token}
    (h : Derives (.statements ss) u r) (hr : kindOf r ≠ .elseWord) : kindOf u ≠ .elseWord := by
  cases h with
  | noStatements => exact hr
  | skip hk =>
    rw [hk.kindOf]
    decide
  | cons hs =>
    have hstart := hs.startsWith
    intro helse
    rw [helse] at hstart
    cases hstart

end Treewalk
