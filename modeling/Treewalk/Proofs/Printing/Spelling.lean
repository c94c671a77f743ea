/-
  Treewalk/Proofs/Printing/Spelling.lean
  ======================================
  **Prints are derived.**  The print of a printable tree, as the scanner cuts
  it up, is derived by the grammar as this tree, whatever text follows that
  does not go on with its last token.

  Every operation stands in parentheses, so each print of an expression is of
  the tightest stratum and fits wherever an expression may stand.
-/
import Treewalk.Proofs.Printing.Printable
import Treewalk.Proofs.Scanning.Boundary
import Treewalk.Tree.Printer

namespace Treewalk

open Treewalk.Parser (kindOf)
open Text

/-! ### Tokens in front of a text -/

theorem tokensFrom_space (rest : List Char) : tokensFrom (' ' :: rest) = tokensFrom rest :=
  tokensFrom_blank rfl rest

/-- A delimiter is read as such, whatever follows. -/
theorem terminal_delimiter {c : Char} {k : Kind} (rest : List Char)
    (hk : Kind.ofChar? c = some k) (hc : c ≠ '=' ∧ c ≠ '!') :
    Terminal k (tokensFrom (c :: rest)) (tokensFrom rest) := by
  refine ⟨⟨k, String.ofList [c]⟩, ?_, rfl, tokensFrom_symbol hk ?_⟩
  · exact Token.wellFormed_of_spelling? (Kind.spelling?_of_ofChar? hk)
  · rintro (h | h)
    · exact absurd h hc.1
    · exact absurd h hc.2

theorem terminal_spelled {k : Kind} {s : String} (rest : List Char)
    (hs : k.spelling? = some s) (hrest : Breaks rest) :
    Terminal k (tokensFrom (s.toList ++ rest)) (tokensFrom rest) :=
  ⟨⟨k, s⟩, Token.wellFormed_of_spelling? hs, rfl, tokensFrom_spelled hs hrest⟩

theorem terminal_spaced {k : Kind} {s : String} (rest : List Char) (hs : k.spelling? = some s) :
    Terminal k (tokensFrom (s.toList ++ ' ' :: rest)) (tokensFrom rest) := by
  rw [← tokensFrom_space rest]
  exact terminal_spelled (' ' :: rest) hs (breaks_blank rfl rest)

theorem nameToken_spelled {x : String} {rest : List Char} (hx : IsName x) (hrest : Breaks rest) :
    NameToken (tokensFrom (x.toList ++ rest)) x (tokensFrom rest) := by
  have hident : Kind.ofWord x = .ident := hx.2.2
  refine ⟨⟨.ident, x⟩, hx, rfl, rfl, ?_⟩
  rw [tokensFrom_word hx.1 hx.2.1 hrest, String.ofList_toList, hident]

/-! ### Expressions -/

/-- The tokens of `cs` in front of any text that does not go on with them make the phrase. -/
def Spelled (φ : Phrase) (cs : List Char) : Prop :=
  ∀ rest, Breaks rest → Derives φ (tokensFrom (cs ++ rest)) (tokensFrom rest)

theorem Spelled.loosen {p q : Precedence} {e : Expr} {cs : List Char}
    (h : Spelled (.expression q e) cs) (hp : p ≤ q) : Spelled (.expression p e) cs :=
  fun rest hrest => .descend hp (h rest hrest)

/-- No expression starts with `=`, so `!` in front of one is an operator. -/
theorem Derives.head?_ne {p : Precedence} {e : Expr} {cs : List Char} {r : List Token}
    (h : Derives (.expression p e) (tokensFrom cs) r) : cs.head? ≠ some '=' := by
  intro hhead
  obtain ⟨cs, rfl⟩ := List.head?_eq_some_iff.mp hhead
  have hstart := h.startsWith
  by_cases hnext : cs.head? = some '='
  · obtain ⟨cs, rfl⟩ := List.head?_eq_some_iff.mp hnext
    rw [tokensFrom_doubled cs (.inl ⟨rfl, rfl⟩)] at hstart
    cases hstart
  · rw [tokensFrom_symbol rfl fun _ => hnext] at hstart
    cases hstart

theorem Spelled.group {e : Expr} {cs : List Char} (h : Spelled (.expression .equality e) cs) :
    Spelled (.expression .call e) ('(' :: (cs ++ [')'])) := by
  intro rest _
  rw [List.cons_append, List.append_assoc]
  exact .group (terminal_delimiter _ rfl (by decide)) (h _ (breaks_cons.mpr (by decide)))
    (terminal_delimiter rest rfl (by decide))

theorem Spelled.unary {op : String} {e : Expr} {cs : List Char} (hop : op ∈ unaryOperators)
    (h : Spelled (.expression .call e) cs) :
    Spelled (.expression .unary (.unary op e)) (op.toList ++ cs) := by
  intro rest hrest
  obtain ⟨k, hk, hs⟩ := mem_unaryOperators_iff.mp hop
  have hne := (h rest hrest).head?_ne
  have htokens : tokensFrom (op.toList ++ (cs ++ rest)) = ⟨k, op⟩ :: tokensFrom (cs ++ rest) := by
    cases k <;> cases hk <;> cases hs <;> exact tokensFrom_symbol rfl fun _ => hne
  rw [List.append_assoc, htokens]
  exact Derives.unary (t := ⟨k, op⟩) (Token.wellFormed_of_spelling? hs) hk
    (.descend (Precedence.le_call _) (h rest hrest))

theorem Spelled.binary {op : String} {l r : Expr} {cs ds : List Char} (hop : op ∈ binaryOperators)
    (hl : Spelled (.expression .call l) cs) (hr : Spelled (.expression .call r) ds) :
    Spelled (.expression .equality (.binary l op r)) (cs ++ ' ' :: (op.toList ++ ' ' :: ds)) := by
  intro rest hrest
  obtain ⟨k, hk, hs⟩ := mem_binaryOperators_iff.mp hop
  have hblank (cs : List Char) : Breaks (' ' :: cs) := breaks_blank rfl cs
  have hleft := hl (' ' :: (op.toList ++ ' ' :: (ds ++ rest))) (hblank _)
  rw [tokensFrom_space, tokensFrom_spelled hs (hblank _), tokensFrom_space] at hleft
  have hbinary := Derives.binary (t := ⟨k, op⟩) (q := .call) (Token.wellFormed_of_spelling? hs) hk
    (.descend (Precedence.le_call _) hleft)
    (Precedence.lt_of_lt_of_le (Kind.precedence_lt_unary_of_operator hk) (Precedence.le_call _))
    (hr rest hrest)
  have hstratum : Precedence.equality ≤ k.precedence := by
    cases k <;> cases hk <;> decide
  simpa using Derives.descend hstratum hbinary

theorem spelled_int {v : Int} (hv : 0 ≤ v ∧ v ≤ Number.greatest) :
    Spelled (.expression .call (.int v)) (toString v).toList := by
  obtain ⟨n, rfl⟩ := Int.eq_ofNat_of_zero_le hv.1
  intro rest hrest
  have hprint : (toString (n : Int)).toList = Nat.toDigits 10 n := Nat.toList_repr
  have hdigits : ∀ c ∈ Nat.toDigits 10 n, c.isDigit = true := fun c hc =>
    Nat.isDigit_of_mem_toDigits (by omega) (by omega) hc
  have hvalue : Number.decimal (Nat.toDigits 10 n) = n := Nat.ofDigitChars_ten_toDigits
  have hint := Derives.int (t := ⟨.int, String.ofList (Nat.toDigits 10 n)⟩)
    (r := tokensFrom rest) ⟨by simp [Nat.toDigits_ne_nil], by simpa using hdigits⟩ rfl
  simp only [String.toList_ofList, hvalue] at hint
  rw [hprint, tokensFrom_numeral Nat.toDigits_ne_nil hdigits hrest]
  exact hint hv.2

/-! ### Lists -/

def behindCommas (texts : List String) : List Char :=
  texts.flatMap fun text => ',' :: ' ' :: text.toList

theorem toList_commaSeparated_cons (text : String) (texts : List String) :
    (commaSeparated (text :: texts)).toList = text.toList ++ behindCommas texts := by
  induction texts generalizing text with
  | nil => simp [commaSeparated, behindCommas]
  | cons next texts ih =>
    have hnext := ih next
    rw [commaSeparated] at hnext ⊢
    simp [String.intercalate_cons_cons, hnext, behindCommas]

theorem breaks_behindCommas (texts : List String) (rest : List Char) :
    Breaks (behindCommas texts ++ ')' :: rest) := by
  cases texts with
  | nil => exact breaks_cons.mpr (by decide)
  | cons text texts => exact breaks_cons.mpr (by decide)

theorem separated_spelled {params : List String} (hparams : ∀ x ∈ params, IsName x)
    (rest : List Char) :
    Separated NameToken (tokensFrom ((commaSeparated params).toList ++ ')' :: rest)) params
      (tokensFrom rest) := by
  have hclose := terminal_delimiter (c := ')') rest rfl (by decide)
  have hmore : ∀ xs : List String, (∀ x ∈ xs, IsName x) →
      MoreSeparated NameToken (tokensFrom (behindCommas xs ++ ')' :: rest)) xs
        (tokensFrom rest) := by
    intro xs hxs
    induction xs with
    | nil => exact .done hclose
    | cons x xs ih =>
      obtain ⟨hx, hxs⟩ := List.forall_mem_cons.mp hxs
      have hname := nameToken_spelled hx (breaks_behindCommas xs rest)
      have hcomma := terminal_delimiter (c := ',')
        (' ' :: (x.toList ++ (behindCommas xs ++ ')' :: rest))) rfl (by decide)
      rw [tokensFrom_space] at hcomma
      simpa [behindCommas] using MoreSeparated.comma hcomma hname (ih hxs)
  cases params with
  | nil => exact .none hclose
  | cons x xs =>
    obtain ⟨hx, hxs⟩ := List.forall_mem_cons.mp hparams
    rw [toList_commaSeparated_cons, List.append_assoc]
    exact .some (nameToken_spelled hx (breaks_behindCommas xs rest)) (hmore xs hxs)

def SpelledMore (es : List Expr) : Prop :=
  ∀ rest, Derives (.moreArguments es)
    (tokensFrom (behindCommas (Expr.printAll es) ++ ')' :: rest)) (tokensFrom rest)

theorem spelledMore_nil : SpelledMore [] := fun rest =>
  .argumentsDone (terminal_delimiter rest rfl (by decide))

theorem SpelledMore.cons {e : Expr} {es : List Expr}
    (he : Spelled (.expression .call e) e.print.toList) (hes : SpelledMore es) :
    SpelledMore (e :: es) := by
  intro rest
  have hcomma := terminal_delimiter (c := ',')
    (' ' :: (e.print.toList ++ (behindCommas (Expr.printAll es) ++ ')' :: rest))) rfl (by decide)
  rw [tokensFrom_space] at hcomma
  have hfirst := he.loosen (Precedence.le_call .equality) _
    (breaks_behindCommas (Expr.printAll es) rest)
  simpa [Expr.printAll, behindCommas] using Derives.argumentsComma hcomma hfirst (hes rest)

theorem arguments_spelled {e : Expr} {es : List Expr}
    (he : Spelled (.expression .call e) e.print.toList) (hes : SpelledMore es)
    (rest : List Char) :
    Derives (.arguments (e :: es))
      (tokensFrom ((commaSeparated (Expr.printAll (e :: es))).toList ++ ')' :: rest))
      (tokensFrom rest) := by
  rw [Expr.printAll, toList_commaSeparated_cons, List.append_assoc]
  exact .someArguments (he.loosen (Precedence.le_call _) _ (breaks_behindCommas _ rest)) (hes rest)

/-! ### Statements -/

/-- A statement, with a semicolon if it needs one.  Nothing may carry on the last one. -/
def StatementSpelled (s : Stmt) : Prop :=
  ∀ behind rest, Breaks rest → (behind = [] → (kindOf (tokensFrom rest)).continuation? = none) →
    Derives (.statement s) (tokensFrom ((s.print ++ s.separator behind).toList ++ rest))
      (tokensFrom rest)

theorem StatementSpelled.of_spelled {s : Stmt} (hs : s.isExpr = false)
    (h : Spelled (.statement s) s.print.toList) : StatementSpelled s := by
  intro behind rest hrest _
  have hnone : s.separator behind = "" := by simp [Stmt.separator, hs]
  rw [hnone, String.append_empty]
  exact h rest hrest

theorem statementSpelled_expr {e : Expr} (he : Spelled (.expression .call e) e.print.toList) :
    StatementSpelled (.expr e) := by
  intro behind rest hrest hlast
  have htop := he.loosen (Precedence.le_call .equality)
  cases behind with
  | nil =>
    have hnone : (Stmt.expr e).separator [] = "" := rfl
    rw [hnone, String.append_empty]
    exact .bare (htop rest hrest) (hlast rfl)
  | cons next behind =>
    have hsemicolon : (Stmt.expr e).separator (next :: behind) = ";" := rfl
    rw [hsemicolon, String.toList_append, List.append_assoc]
    exact .closed (htop _ (breaks_cons.mpr (by decide)))
      (terminal_delimiter rest rfl (by decide))

/-- Statements with one blank between them. -/
def SpelledAll (sep : String) (ss : List Stmt) : Prop :=
  ∀ rest, Breaks rest → (kindOf (tokensFrom rest)).continuation? = none →
    Derives (.statements ss) (tokensFrom ((sep.intercalate (Stmt.printAll ss)).toList ++ rest))
      (tokensFrom rest)

theorem spelledAll_nil (sep : String) : SpelledAll sep [] := by
  intro rest _ _
  exact .noStatements

theorem SpelledAll.cons {sep : String} {b : Char} (hsep : sep.toList = [b])
    (hb : isBlank b = true) {s : Stmt} {ss : List Stmt} (hs : StatementSpelled s)
    (hss : SpelledAll sep ss) : SpelledAll sep (s :: ss) := by
  intro rest hrest hlast
  cases ss with
  | nil =>
    have hone := hs [] rest hrest fun _ => hlast
    rw [Stmt.printAll, Stmt.printAll, String.intercalate_singleton]
    exact .cons hone .noStatements
  | cons t ss =>
    have hfirst := hs (t :: ss)
      (b :: ((sep.intercalate (Stmt.printAll (t :: ss))).toList ++ rest)) (breaks_blank hb _) nofun
    rw [tokensFrom_blank hb] at hfirst
    have hall := Derives.cons hfirst (hss rest hrest hlast)
    rw [Stmt.printAll] at hall
    rw [Stmt.printAll, Stmt.printAll, String.intercalate_cons_cons]
    simpa [hsep] using hall

theorem SpelledAll.braced {ss : List Stmt} (hss : SpelledAll " " ss) :
    Spelled (.block ss) (braced (Stmt.printAll ss)).toList := by
  intro rest _
  have hclose := terminal_delimiter (c := '\x7d') rest rfl (by decide)
  cases ss with
  | nil =>
    have hopen := terminal_delimiter (c := '\x7b') (' ' :: '\x7d' :: rest) rfl (by decide)
    rw [tokensFrom_space] at hopen
    exact .block hopen .noStatements hclose
  | cons s ss =>
    have hopen := terminal_delimiter (c := '\x7b')
      (' ' :: ((" ".intercalate (Stmt.printAll (s :: ss))).toList ++ ' ' :: '\x7d' :: rest)) rfl
      (by decide)
    have hbody := hss (' ' :: '\x7d' :: rest) (breaks_blank rfl _) (by
      rw [tokensFrom_space, hclose.kindOf]
      rfl)
    rw [tokensFrom_space] at hopen hbody
    simpa [Treewalk.braced, Stmt.printAll] using Derives.block hopen hbody hclose

theorem Spelled.define {x : String} {e : Expr} {cs : List Char} (hx : IsName x)
    (he : Spelled (.expression .call e) cs) :
    Spelled (.statement (.define x e))
      ("let ".toList ++ x.toList ++ " = ".toList ++ cs ++ [';']) := by
  intro rest _
  have hlet := terminal_spaced (k := .letWord)
    (x.toList ++ ' ' :: ("=".toList ++ ' ' :: (cs ++ ';' :: rest))) rfl
  have hname := nameToken_spelled hx
    (breaks_blank (c := ' ') rfl ("=".toList ++ ' ' :: (cs ++ ';' :: rest)))
  have hassign := terminal_spaced (k := .assign) (cs ++ ';' :: rest) rfl
  have hvalue := he.loosen (Precedence.le_call .equality) (';' :: rest)
    (breaks_cons.mpr (by decide))
  have hend := terminal_delimiter (c := ';') rest rfl (by decide)
  rw [tokensFrom_space] at hname
  simpa using Derives.define hlet hname hassign hvalue hend

theorem spelled_bareReturn : Spelled (.statement (.ret .empty)) "return;".toList := by
  intro rest _
  exact .bareReturn
    (terminal_spelled (k := .returnWord) (';' :: rest) rfl (breaks_cons.mpr (by decide)))
    (terminal_delimiter rest rfl (by decide))

theorem Spelled.ret {e : Expr} {cs : List Char} (he : Spelled (.expression .call e) cs) :
    Spelled (.statement (.ret e)) ("return ".toList ++ cs ++ [';']) := by
  intro rest _
  have hreturn := terminal_spaced (k := .returnWord) (cs ++ ';' :: rest) rfl
  have hvalue := he.loosen (Precedence.le_call .equality) (';' :: rest)
    (breaks_cons.mpr (by decide))
  have hend := terminal_delimiter (c := ';') rest rfl (by decide)
  simpa using Derives.ret hreturn hvalue hend

/-! ### Blocks in expressions -/

theorem Spelled.otherwise {body : Block} {cs : List Char} (h : Spelled (.block body) cs) :
    Spelled (.otherwise (some body)) (" else ".toList ++ cs) := by
  intro rest hrest
  have helse := terminal_spaced (k := .elseWord) (cs ++ rest) rfl
  rw [← tokensFrom_space] at helse
  exact .someOtherwise helse (h rest hrest)

theorem Spelled.choice {test : Expr} {body : Block} {other : Option Block}
    {cs ds es : List Char} (htest : Spelled (.expression .call test) cs)
    (hbody : Spelled (.block body) ds) (hother : Spelled (.otherwise other) es)
    (hbreaks : ∀ rest, Breaks rest → Breaks (es ++ rest)) :
    Spelled (.expression .call (.cond test body other))
      ("if (".toList ++ cs ++ ") ".toList ++ ds ++ es) := by
  intro rest hrest
  have hif := terminal_spaced (k := .ifWord) ('(' :: (cs ++ ')' :: ' ' :: (ds ++ (es ++ rest)))) rfl
  have hopen := terminal_delimiter (c := '(') (cs ++ ')' :: ' ' :: (ds ++ (es ++ rest))) rfl
    (by decide)
  have htest := htest.loosen (Precedence.le_call .equality) (')' :: ' ' :: (ds ++ (es ++ rest)))
    (breaks_cons.mpr (by decide))
  have hclose := terminal_delimiter (c := ')') (' ' :: (ds ++ (es ++ rest))) rfl (by decide)
  rw [tokensFrom_space] at hclose
  have hbody := hbody (es ++ rest) (hbreaks rest hrest)
  simpa using Derives.choice hif hopen htest hclose hbody (hother rest hrest)

theorem Spelled.function {params : List String} {body : Block} {cs : List Char}
    (hparams : ∀ x ∈ params, IsName x) (hbody : Spelled (.block body) cs) :
    Spelled (.expression .call (.fn params body))
      ("fn(".toList ++ (commaSeparated params).toList ++ ") ".toList ++ cs) := by
  intro rest hrest
  have hfn := terminal_spelled (k := .fnWord)
    ('(' :: ((commaSeparated params).toList ++ ')' :: ' ' :: (cs ++ rest))) rfl
    (breaks_cons.mpr (by decide))
  have hopen := terminal_delimiter (c := '(')
    ((commaSeparated params).toList ++ ')' :: ' ' :: (cs ++ rest)) rfl (by decide)
  have hnames := separated_spelled hparams (' ' :: (cs ++ rest))
  rw [tokensFrom_space] at hnames
  simpa using Derives.function hfn hopen hnames (hbody rest hrest)

theorem Spelled.call {callee : Expr} {args : List Expr} {cs ds : List Char}
    (hcallee : Spelled (.expression .call callee) cs)
    (hargs : ∀ rest, Derives (.arguments args) (tokensFrom (ds ++ ')' :: rest)) (tokensFrom rest)) :
    Spelled (.expression .call (.call callee args)) (cs ++ '(' :: (ds ++ [')'])) := by
  intro rest _
  have hcallee := hcallee ('(' :: (ds ++ ')' :: rest)) (breaks_cons.mpr (by decide))
  have hopen := terminal_delimiter (c := '(') (ds ++ ')' :: rest) rfl (by decide)
  simpa using Derives.call hcallee hopen (hargs rest)

theorem breaks_printOther (other : Option Block) {rest : List Char} (hrest : Breaks rest) :
    Breaks ((Stmt.printOther other).toList ++ rest) := by
  cases other with
  | none => simpa [Stmt.printOther] using hrest
  | some body => simpa [Stmt.printOther] using breaks_blank (c := ' ') rfl _

/-! ### All trees -/

mutual
theorem Expr.spelled : ∀ e : Expr, e.Printable → Spelled (.expression .call e) e.print.toList
  | .empty, h => h.elim
  | .ident x, h => fun rest hrest => .ident (nameToken_spelled h hrest)
  | .int v, h => spelled_int h
  | .bool true, _ => fun rest hrest => .yes (terminal_spelled rest rfl hrest)
  | .bool false, _ => fun rest hrest => .no (terminal_spelled rest rfl hrest)
  | .unary op e, h => by
    have hunary := (e.spelled h.2).unary h.1
    simpa [Expr.print] using (hunary.loosen (by decide)).group
  | .binary l op r, h => by
    have hbinary := (l.spelled h.1).binary h.2.1 (r.spelled h.2.2)
    simpa [Expr.print] using hbinary.group
  | .cond test body other, h => by
    have hbody := (Stmt.spelledAll body h.2.1 " " ' ' rfl rfl).braced
    have hother := Stmt.spelledOther other h.2.2
    have hchoice := (test.spelled h.1).choice hbody hother fun _ => breaks_printOther other
    simpa [Expr.print] using hchoice
  | .fn params body, h => by
    have hbody := (Stmt.spelledAll body h.2 " " ' ' rfl rfl).braced
    simpa [Expr.print] using hbody.function h.1
  | .call callee [], h => by
    have hnone (rest : List Char) :
        Derives (.arguments []) (tokensFrom ([] ++ ')' :: rest)) (tokensFrom rest) :=
      .noArguments (terminal_delimiter rest rfl (by decide))
    simpa [Expr.print, Expr.printAll, commaSeparated] using (callee.spelled h.1).call hnone
  | .call callee (e :: es), h => by
    have hargs := arguments_spelled (e.spelled h.2.1) (Expr.spelledMore es h.2.2)
    simpa [Expr.print] using (callee.spelled h.1).call hargs
termination_by structural e => e

theorem Expr.spelledMore : ∀ es : List Expr, Expr.AllPrintable es → SpelledMore es
  | [], _ => spelledMore_nil
  | e :: es, h => .cons (e.spelled h.1) (Expr.spelledMore es h.2)
termination_by structural es => es

theorem Stmt.spelled : ∀ s : Stmt, s.Printable → StatementSpelled s
  | .empty, h => h.elim
  | .define x e, h => .of_spelled rfl (by simpa [Stmt.print] using (e.spelled h.2).define h.1)
  | .ret e, h => by
    -- `return` prints its value apart from the case that there is none.
    by_cases hempty : e = .empty
    · subst hempty
      exact .of_spelled rfl spelled_bareReturn
    · have he := e.spelled (h.resolve_left hempty)
      have hprint : (Stmt.ret e).print = "return " ++ e.print ++ ";" := by
        cases e <;> first | rfl | exact absurd rfl hempty
      exact .of_spelled rfl (by simpa [hprint] using he.ret)
  | .expr e, h => statementSpelled_expr (e.spelled h)
  | .block body, h =>
    .of_spelled rfl fun rest hrest =>
      .blockStatement ((Stmt.spelledAll body h " " ' ' rfl rfl).braced rest hrest)
termination_by structural s => s

theorem Stmt.spelledAll : ∀ ss : List Stmt, Stmt.AllPrintable ss → ∀ (sep : String) (b : Char),
    sep.toList = [b] → isBlank b = true → SpelledAll sep ss
  | [], _, sep, _, _, _ => spelledAll_nil sep
  | s :: ss, h, sep, b, hsep, hb =>
    .cons hsep hb (s.spelled h.1) (Stmt.spelledAll ss h.2 sep b hsep hb)
termination_by structural ss => ss

theorem Stmt.spelledOther : ∀ other : Option (List Stmt), Stmt.OtherPrintable other →
    Spelled (.otherwise other) (Stmt.printOther other).toList
  | none, _ => fun _ _ => .noOtherwise
  | some body, h => by
    have hbody := (Stmt.spelledAll body h " " ' ' rfl rfl).braced
    simpa [Stmt.printOther] using hbody.otherwise
termination_by structural other => other
end

/-- The print of a printable program is derived as this program. -/
theorem Program.derives_print {p : Program} (h : p.Printable) :
    Derives (.statements p) (tokensFrom (Program.print p).toList) [] := by
  have hall := Stmt.spelledAll p h "\n" '\n' rfl rfl [] breaks_nil (by
    rw [tokensFrom_nil]
    rfl)
  rwa [List.append_nil, tokensFrom_nil] at hall

end Treewalk
