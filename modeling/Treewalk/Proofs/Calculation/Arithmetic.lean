/-
  Treewalk/Proofs/Calculation/Arithmetic.lean
  ===========================================
  **Arithmetic by itself**: terms, what they mean, and how they are written.

  The meaning of a term is a number without regard to any range.  Beside it
  stand the operations of the term in the order in which they are carried out,
  each with its exact operands; which of them is the first to fail decides
  what a calculation answers.

      E = E '+' T | E '-' T | T
      T = T '*' U | T '/' U | U
      U = '-' U | P
      P = NUMERAL | '(' E ')'

  What is written this way is also written in the language, as one expression
  whose tree has the shape of the term.
-/
import Mathlib.Algebra.Group.Int.Defs
import Treewalk.Interpreter
import Treewalk.Proofs.Parsing.Exactness
import Treewalk.Proofs.Printing.Printable

namespace Treewalk

/-! ### Terms and their meaning -/

inductive Operator where
  | plus
  | minus
  | times
  | dividedBy
  deriving DecidableEq, Repr

/-- The exact result of an operator.  A quotient is truncated toward zero. -/
def Operator.apply : Operator → Int → Int → Int
  | plus, x, y => x + y
  | minus, x, y => x - y
  | times, x, y => x * y
  | dividedBy, x, y => x.tdiv y

inductive Arithmetic where
  | number (n : Nat)
  | negation (a : Arithmetic)
  | operation (a : Arithmetic) (op : Operator) (b : Arithmetic)
  deriving DecidableEq, Repr

/-- One operation, with its operands. -/
inductive Operation where
  | negation (x : Int)
  | binary (op : Operator) (x y : Int)
  deriving DecidableEq, Repr

def Operation.result : Operation → Int
  | negation x => -x
  | binary op x y => op.apply x y

/-- Why an operation cannot be carried out, if it cannot. -/
def Operation.failure? : Operation → Option String
  | binary .dividedBy x 0 => some ("division by zero: " ++ toString x ++ " / 0")
  | o =>
    if -2 ^ 63 ≤ o.result ∧ o.result ≤ 2 ^ 63 - 1 then none
    else some ("integer overflow: " ++ toString o.result ++ " does not fit in 64 bits")

namespace Arithmetic

/-- The number that a term stands for. -/
def exact : Arithmetic → Int
  | number n => n
  | negation a => -a.exact
  | operation a op b => op.apply a.exact b.exact

/-- The operations of a term: operands come before their operation, and left before right. -/
def operations : Arithmetic → List Operation
  | number _ => []
  | negation a => a.operations ++ [.negation a.exact]
  | operation a op b => a.operations ++ (b.operations ++ [.binary op a.exact b.exact])

/-- What a calculation comes to: the exact number, or why the first operation fails that does. -/
def answer (a : Arithmetic) : Answer :=
  match a.operations.findSome? Operation.failure? with
  | none => .number a.exact
  | some failure => .text failure

end Arithmetic

/-! ### How terms are written -/

def Operator.kind : Operator → Kind
  | plus => .plus
  | minus => .minus
  | times => .asterisk
  | dividedBy => .slash

/-- The layers of the grammar, from `E` to `P`. -/
inductive Layer where
  | sum
  | product
  | unary
  | primary
  deriving DecidableEq, Repr

/-- The layer of what an operator makes, which is also that of its left operand. -/
def Operator.layer : Operator → Layer
  | plus | minus => .sum
  | times | dividedBy => .product

/-- The layer of the right operand. -/
def Operator.right : Operator → Layer
  | plus | minus => .product
  | times | dividedBy => .unary

/-- The tokens are a term of the layer. -/
inductive Writes : Layer → List Token → Arithmetic → Prop where
  | operation {op : Operator} {t : Token} {u v : List Token} {a b : Arithmetic} :
      t.kind = op.kind → Writes op.layer u a → Writes op.right v b →
      Writes op.layer (u ++ t :: v) (.operation a op b)
  | product {u : List Token} {a : Arithmetic} : Writes .product u a → Writes .sum u a
  | unary {u : List Token} {a : Arithmetic} : Writes .unary u a → Writes .product u a
  | negation {t : Token} {u : List Token} {a : Arithmetic} : t.kind = .minus →
      Writes .unary u a → Writes .unary (t :: u) (.negation a)
  | primary {u : List Token} {a : Arithmetic} : Writes .primary u a → Writes .unary u a
  | number {t : Token} : t.kind = .int → Number.decimal t.text.toList ≤ 2 ^ 63 - 1 →
      Writes .primary [t] (.number (Number.decimal t.text.toList))
  | group {t t' : Token} {u : List Token} {a : Arithmetic} : t.kind = .leftParen →
      Writes .sum u a → t'.kind = .rightParen → Writes .primary (t :: (u ++ [t'])) a

theorem Writes.numeral {n : Nat} {digits : String} (h : Number.decimal digits.toList = n)
    (hn : n ≤ 2 ^ 63 - 1) : Writes .primary [⟨.int, digits⟩] (.number n) :=
  h ▸ .number rfl (h ▸ hn)

/-- The text is the term, with any blanks between its tokens. -/
def Arithmetic.WrittenAs (a : Arithmetic) (text : String) : Prop :=
  Writes .sum ((scan text).map (·.token)) a

/-! ### Terms as trees of the language -/

def Operator.symbol : Operator → String
  | plus => "+"
  | minus => "-"
  | times => "*"
  | dividedBy => "/"

def Arithmetic.tree : Arithmetic → Expr
  | number n => .int n
  | negation a => .unary "-" a.tree
  | operation a op b => .binary a.tree op.symbol b.tree

def Layer.precedence : Layer → Precedence
  | sum => .sum
  | product => .product
  | unary => .unary
  | primary => .call

/-- An operator is of the precedence of its layer, and a term of the right layer binds tighter. -/
theorem Operator.layer_precedence (op : Operator) :
    op.kind.precedence = op.layer.precedence ∧ op.layer.precedence < op.right.precedence := by
  cases op <;> decide

theorem Operator.continuation?_kind (op : Operator) :
    op.kind.continuation? = some .operator := by
  cases op <;> rfl

theorem Operator.spelling?_kind (op : Operator) : op.kind.spelling? = some op.symbol := by
  cases op <;> rfl

theorem Token.WellFormed.text_eq {t : Token} (ht : t.WellFormed) {k : Kind} {s : String}
    (hk : t.kind = k) (hs : k.spelling? = some s)
    (hop : k.isUnary = true ∨ k.continuation? = some .operator) : t.text = s := by
  subst hk
  exact Option.some.inj ((ht.spelling?_of_operator hop).symm.trans hs)

/-- Whatever follows, a term is an expression of the language. -/
theorem Writes.derives {l : Layer} {u : List Token} {a : Arithmetic} (h : Writes l u a)
    (hu : ∀ t ∈ u, t.WellFormed) (r : List Token) :
    Derives (.expression l.precedence a.tree) (u ++ r) r := by
  induction h generalizing r with
  | @operation op t u v a b hk _ _ iha ihb =>
    obtain ⟨hu, hv⟩ := List.forall_mem_append.mp hu
    obtain ⟨ht, hv⟩ := List.forall_mem_cons.mp hv
    obtain ⟨hlayer, hright⟩ := op.layer_precedence
    have hcontinues : t.kind.continuation? = some .operator := hk ▸ op.continuation?_kind
    have hprecedence : t.kind.precedence = op.layer.precedence := by rw [hk, hlayer]
    have htext := ht.text_eq hk op.spelling?_kind (.inr op.continuation?_kind)
    have hleft := iha hu (t :: (v ++ r))
    rw [← hprecedence] at hleft hright ⊢
    rw [Arithmetic.tree, ← htext, List.append_assoc, List.cons_append]
    exact .binary ht hcontinues hleft hright (ihb hv r)
  | product _ ih => exact .descend (by decide) (ih hu r)
  | unary _ ih => exact .descend (by decide) (ih hu r)
  | @negation t u a hk _ ih =>
    obtain ⟨ht, hu⟩ := List.forall_mem_cons.mp hu
    have htext := ht.text_eq hk rfl (.inl rfl)
    rw [Arithmetic.tree, ← htext]
    exact .unary ht (by rw [hk]; rfl) (ih hu r)
  | primary _ ih => exact .descend (by decide) (ih hu r)
  | @number t hk hle =>
    obtain ⟨ht, -⟩ := List.forall_mem_cons.mp hu
    refine .int ht hk ?_
    show _ ≤ (9223372036854775807 : Int)
    omega
  | @group t t' u a hopen _ hclose ih =>
    obtain ⟨ht, hu⟩ := List.forall_mem_cons.mp hu
    obtain ⟨hu, ht'⟩ := List.forall_mem_append.mp hu
    obtain ⟨ht', -⟩ := List.forall_mem_cons.mp ht'
    have hinner := ih hu (t' :: r)
    rw [List.cons_append, List.append_assoc, List.singleton_append]
    exact .group ⟨t, ht, hopen, rfl⟩ (.descend (by decide) hinner) ⟨t', ht', hclose, rfl⟩

/-- A text that is a term is a program of one expression. -/
theorem Arithmetic.WrittenAs.denotes {text : String} {a : Arithmetic} (h : a.WrittenAs text) :
    Denotes text [.expr a.tree] := by
  rw [WrittenAs, map_token_scan] at h
  have hexpression := h.derives (wellFormed_of_mem_tokensFrom text.toList) []
  rw [List.append_nil] at hexpression
  rw [denotes_iff]
  exact .cons (.bare (.descend (by decide) hexpression) rfl) .noStatements

end Treewalk
