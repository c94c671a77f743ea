/-
  Treewalk/Proofs/Printing/Printable.lean
  =======================================
  **Printable trees**: those that some text is the program of.  There are more
  trees than programs, and a tree that no text has may still print as the text
  of another one.

  What the grammar derives is printable.  That every printable tree is the
  program of its print is shown in `Spelling` and `RoundTrip`.
-/
import Treewalk.Proofs.Parsing.Grammar
import Treewalk.Tree.Equality

namespace Treewalk

/-! ### The trees -/

def unaryOperators : List String := ["!", "-"]

def binaryOperators : List String := ["+", "-", "*", "/", "<", ">", "==", "!="]

mutual
/-- An expression that can be written. -/
def Expr.Printable : Expr → Prop
  | .empty => False
  | .ident name => IsName name
  | .int value => 0 ≤ value ∧ value ≤ Number.greatest
  | .bool _ => True
  | .unary op e => op ∈ unaryOperators ∧ e.Printable
  | .binary l op r => l.Printable ∧ op ∈ binaryOperators ∧ r.Printable
  | .cond test body other =>
    test.Printable ∧ Stmt.AllPrintable body ∧ Stmt.OtherPrintable other
  | .fn params body => (∀ x ∈ params, IsName x) ∧ Stmt.AllPrintable body
  | .call callee args => callee.Printable ∧ Expr.AllPrintable args

def Expr.AllPrintable : List Expr → Prop
  | [] => True
  | e :: es => e.Printable ∧ Expr.AllPrintable es

/-- A statement that can be written.  Only behind `return` may an expression be missing. -/
def Stmt.Printable : Stmt → Prop
  | .empty => False
  | .define name value => IsName name ∧ value.Printable
  | .ret value => value = .empty ∨ value.Printable
  | .expr value => value.Printable
  | .block body => Stmt.AllPrintable body

def Stmt.AllPrintable : List Stmt → Prop
  | [] => True
  | s :: rest => s.Printable ∧ Stmt.AllPrintable rest

def Stmt.OtherPrintable : Option (List Stmt) → Prop
  | none => True
  | some body => Stmt.AllPrintable body
end

def Program.Printable (p : Program) : Prop := Stmt.AllPrintable p

theorem Stmt.printable_of_mem {body : Block} (h : Stmt.AllPrintable body) :
    ∀ s ∈ body, s.Printable := by
  induction body with
  | nil => nofun
  | cons s rest ih => exact List.forall_mem_cons.mpr ⟨h.1, ih h.2⟩

theorem Expr.printable_of_mem {es : List Expr} (h : Expr.AllPrintable es) :
    ∀ e ∈ es, e.Printable := by
  induction es with
  | nil => nofun
  | cons e es ih => exact List.forall_mem_cons.mpr ⟨h.1, ih h.2⟩

/-! ### Printability is decidable -/

mutual
def Expr.decidablePrintable : (e : Expr) → Decidable e.Printable
  | .empty => .isFalse id
  | .ident name => inferInstanceAs (Decidable (IsName name))
  | .int v => inferInstanceAs (Decidable (0 ≤ v ∧ v ≤ Number.greatest))
  | .bool _ => .isTrue trivial
  | .unary op e =>
    have := e.decidablePrintable
    inferInstanceAs (Decidable (op ∈ unaryOperators ∧ e.Printable))
  | .binary l op r =>
    have := l.decidablePrintable
    have := r.decidablePrintable
    inferInstanceAs (Decidable (l.Printable ∧ op ∈ binaryOperators ∧ r.Printable))
  | .cond test body other =>
    have := test.decidablePrintable
    have := Stmt.decidableAllPrintable body
    have := Stmt.decidableOtherPrintable other
    inferInstanceAs (Decidable (_ ∧ Stmt.AllPrintable body ∧ Stmt.OtherPrintable other))
  | .fn params body =>
    have := Stmt.decidableAllPrintable body
    inferInstanceAs (Decidable ((∀ x ∈ params, IsName x) ∧ Stmt.AllPrintable body))
  | .call callee args =>
    have := callee.decidablePrintable
    have := Expr.decidableAllPrintable args
    inferInstanceAs (Decidable (callee.Printable ∧ Expr.AllPrintable args))

def Expr.decidableAllPrintable : (es : List Expr) → Decidable (Expr.AllPrintable es)
  | [] => .isTrue trivial
  | e :: es =>
    have := e.decidablePrintable
    have := Expr.decidableAllPrintable es
    inferInstanceAs (Decidable (e.Printable ∧ Expr.AllPrintable es))

def Stmt.decidablePrintable : (s : Stmt) → Decidable s.Printable
  | .empty => .isFalse id
  | .define name value =>
    have := value.decidablePrintable
    inferInstanceAs (Decidable (IsName name ∧ value.Printable))
  | .ret value =>
    have := value.decidablePrintable
    inferInstanceAs (Decidable (value = .empty ∨ value.Printable))
  | .expr value => value.decidablePrintable
  | .block body => Stmt.decidableAllPrintable body

def Stmt.decidableAllPrintable : (ss : List Stmt) → Decidable (Stmt.AllPrintable ss)
  | [] => .isTrue trivial
  | s :: rest =>
    have := s.decidablePrintable
    have := Stmt.decidableAllPrintable rest
    inferInstanceAs (Decidable (s.Printable ∧ Stmt.AllPrintable rest))

def Stmt.decidableOtherPrintable : (b : Option (List Stmt)) → Decidable (Stmt.OtherPrintable b)
  | none => .isTrue trivial
  | some body => Stmt.decidableAllPrintable body
end

instance (p : Program) : Decidable p.Printable := Stmt.decidableAllPrintable p

/-- A negative number is written with an operator, never as a numeral. -/
example : ¬Program.Printable [.expr (.int (-1))] ∧
    Program.Printable [.expr (.unary "-" (.int 1))] := by decide

/-! ### Operators -/

theorem mem_unaryOperators_iff {op : String} :
    op ∈ unaryOperators ↔ ∃ k : Kind, k.isUnary = true ∧ k.spelling? = some op := by
  constructor
  · intro hop
    simp only [unaryOperators, List.mem_cons, List.not_mem_nil, or_false] at hop
    rcases hop with rfl | rfl
    · exact ⟨.bang, rfl, rfl⟩
    · exact ⟨.minus, rfl, rfl⟩
  · rintro ⟨k, hk, hop⟩
    cases k <;> cases hk <;> cases hop <;> decide

theorem mem_binaryOperators_iff {op : String} :
    op ∈ binaryOperators ↔
      ∃ k : Kind, k.continuation? = some .operator ∧ k.spelling? = some op := by
  constructor
  · intro hop
    simp only [binaryOperators, List.mem_cons, List.not_mem_nil, or_false] at hop
    rcases hop with rfl | rfl | rfl | rfl | rfl | rfl | rfl | rfl
    · exact ⟨.plus, rfl, rfl⟩
    · exact ⟨.minus, rfl, rfl⟩
    · exact ⟨.asterisk, rfl, rfl⟩
    · exact ⟨.slash, rfl, rfl⟩
    · exact ⟨.less, rfl, rfl⟩
    · exact ⟨.greater, rfl, rfl⟩
    · exact ⟨.equal, rfl, rfl⟩
    · exact ⟨.notEqual, rfl, rfl⟩
  · rintro ⟨k, hk, hop⟩
    cases k <;> cases hk <;> cases hop <;> decide

theorem Token.WellFormed.spelling?_of_operator {t : Token} (ht : t.WellFormed)
    (hk : t.kind.isUnary = true ∨ t.kind.continuation? = some .operator) :
    t.kind.spelling? = some t.text := by
  revert ht hk
  cases h : t.kind <;> simp [WellFormed, h, Kind.isUnary, Kind.continuation?]

/-! ### What is derived can be printed -/

theorem NameToken.isName {u r : List Token} {x : String} (h : NameToken u x r) : IsName x := by
  obtain ⟨t, ht, hk, rfl, -⟩ := h
  exact ht.isName hk

theorem Separated.forall_mem {α : Type} {R : List Token → α → List Token → Prop} {P : α → Prop}
    (hR : ∀ u x v, R u x v → P x) {u r : List Token} {xs : List α} (h : Separated R u xs r) :
    ∀ x ∈ xs, P x := by
  have hmore : ∀ {u xs r}, MoreSeparated R u xs r → ∀ x ∈ xs, P x := by
    intro u xs r h
    induction h with
    | done => nofun
    | comma _ hx _ ih => exact List.forall_mem_cons.mpr ⟨hR _ _ _ hx, ih⟩
  cases h with
  | none => nofun
  | some hx h => exact List.forall_mem_cons.mpr ⟨hR _ _ _ hx, hmore h⟩

def Phrase.Printable : Phrase → Prop
  | expression _ e => e.Printable
  | arguments es | moreArguments es => Expr.AllPrintable es
  | block body => Stmt.AllPrintable body
  | otherwise body => Stmt.OtherPrintable body
  | statement s => s.Printable
  | statements ss => Stmt.AllPrintable ss

theorem Derives.printable {φ : Phrase} {u r : List Token} (h : Derives φ u r) : φ.Printable := by
  induction h with
  | descend _ _ ih => exact ih
  | binary ht hk _ _ _ ihl ihr =>
    exact ⟨ihl, mem_binaryOperators_iff.mpr ⟨_, hk, ht.spelling?_of_operator (.inr hk)⟩, ihr⟩
  | unary ht hk _ ih =>
    exact ⟨mem_unaryOperators_iff.mpr ⟨_, hk, ht.spelling?_of_operator (.inl hk)⟩, ih⟩
  | call _ _ _ ihf ihs => exact ⟨ihf, ihs⟩
  | ident hname => exact hname.isName
  | int _ _ hle => exact ⟨Int.natCast_nonneg _, hle⟩
  | yes | no => exact trivial
  | group _ _ _ ih => exact ih
  | choice _ _ _ _ _ _ ihtest ihbody ihother => exact ⟨ihtest, ihbody, ihother⟩
  | function _ _ hparams _ ih => exact ⟨hparams.forall_mem fun _ _ _ h => h.isName, ih⟩
  | noArguments | argumentsDone => exact trivial
  | someArguments _ _ ih ihs | argumentsComma _ _ _ ih ihs => exact ⟨ih, ihs⟩
  | block _ _ _ ih => exact ih
  | noOtherwise | noStatements => exact trivial
  | someOtherwise _ _ ih => exact ih
  | define _ hname _ _ _ ih => exact ⟨hname.isName, ih⟩
  | bareReturn => exact .inl rfl
  | ret _ _ _ ih => exact .inr ih
  | blockStatement _ ih => exact ih
  | closed _ _ ih | bare _ _ ih => exact ih
  | skip _ _ ih => exact ih
  | cons _ _ ih ihs => exact ⟨ih, ihs⟩

end Treewalk
