/-
  Treewalk/Proofs/Parsing/Literal.lean
  ====================================
  **Numerals are read for their value**, whatever their length and however many
  zeros they start with.  A numeral that is above the greatest number is
  refused and shown as it was written, with its zeros.

  To convert digits to a number is asked for only where they are few.  This is
  said of reading by a conversion that may refuse: it does not matter what the
  conversion does with more digits than the greatest number has.
-/
import Mathlib.Data.Nat.Digits.Defs
import Treewalk.Proofs.Numeral
import Treewalk.Proofs.Parsing.Exactness
import Treewalk.Proofs.Scanning.Layout
import Treewalk.Proofs.Scanning.Places

namespace Treewalk

/-! ### Values of numerals -/

namespace Number

/-- The number with these digits: the last one counts ones, and every other one counts ten times
    as much as the digit behind it. -/
def ofDecimal (digits : List Char) : Nat :=
  Nat.ofDigits 10 (digits.map fun c => c.toNat - '0'.toNat).reverse

theorem decimal_eq_ofDecimal (digits : List Char) : decimal digits = ofDecimal digits := by
  induction digits with
  | nil => rfl
  | cons c cs ih =>
    rw [decimal_cons, ih, ofDecimal, ofDecimal, List.map_cons, List.reverse_cons,
      Nat.ofDigits_append, Nat.ofDigits_singleton, List.length_reverse, List.length_map,
      Nat.add_comm]

theorem ofNumeral?_eq {digits : List Char} (hdigits : ∀ c ∈ digits, c.isDigit = true) :
    ofNumeral? digits =
      if ofDecimal digits ≤ 2 ^ 63 - 1 then some (ofDecimal digits : Int) else none := by
  have hgreatest : greatest = (2 ^ 63 - 1 : Nat) := by decide
  split
  · next hle =>
    refine (ofNumeral?_eq_some_iff hdigits _).mpr ⟨by rw [decimal_eq_ofDecimal], ?_⟩
    rw [hgreatest]
    exact Int.ofNat_le.mpr hle
  · next habove =>
    cases hread : ofNumeral? digits with
    | none => rfl
    | some v =>
      obtain ⟨rfl, hle⟩ := (ofNumeral?_eq_some_iff hdigits v).mp hread
      rw [hgreatest, decimal_eq_ofDecimal] at hle
      exact absurd (Int.ofNat_le.mp hle) habove

/-! ### Conversion -/

/-- Reads a numeral by a conversion of digits, which may refuse; then reading fails, and neither
    accepts the numeral nor refuses it. -/
def readBy (convert : List Char → Option Nat) (digits : List Char) : Option (Option Int) :=
  if (significant digits).length ≤ digitLimit then do
    let value : Int ← convert (significant digits)
    return if value ≤ greatest then some value else none
  else
    return none

theorem significant_ne_nil (digits : List Char) : significant digits ≠ [] := by
  unfold significant
  split
  · exact List.cons_ne_nil _ _
  · next hrest => exact hrest

theorem isDigit_of_mem_significant {digits : List Char}
    (hdigits : ∀ c ∈ digits, c.isDigit = true) : ∀ c ∈ significant digits, c.isDigit = true := by
  intro c hc
  unfold significant at hc
  split at hc
  · rw [List.mem_singleton.mp hc]
    rfl
  · exact hdigits c ((List.dropWhile_sublist _).subset hc)

/-- A conversion is asked for no more digits than the greatest number has. -/
theorem readBy_eq {convert : List Char → Option Nat}
    (hconvert : ∀ ds, ds ≠ [] → ds.length ≤ 19 → (∀ c ∈ ds, c.isDigit = true) →
      convert ds = some (ofDecimal ds))
    {digits : List Char} (hdigits : ∀ c ∈ digits, c.isDigit = true) :
    readBy convert digits = some (ofNumeral? digits) := by
  unfold readBy ofNumeral?
  split
  · next hshort =>
    have hvalue : valueOf (significant digits) hshort = ofDecimal (significant digits) := by
      rw [← decimal_eq_ofDecimal]
      rfl
    rw [hconvert _ (significant_ne_nil digits) (digitLimit_eq ▸ hshort)
      (isDigit_of_mem_significant hdigits), hvalue]
    rfl
  · rfl

end Number

/-! ### Numerals as they are shown -/

theorem Text.quotedChar_of_isDigit {c : Char} (hc : c.isDigit = true) :
    quotedChar singleQuote c = [c] := by
  have hall : ∀ n < 58, 48 ≤ n → quotedChar singleQuote (Char.ofNat n) = [Char.ofNat n] := by
    decide +kernel
  obtain ⟨hlow, hhigh⟩ := Char.isDigit_iff_toNat.mp hc
  have hchar := hall c.toNat (Nat.lt_succ_of_le hhigh) hlow
  rwa [Char.ofNat_toNat] at hchar

/-- A numeral is shown between quotes as it is. -/
theorem Text.quoted_numeral {text : String} (hdigits : ∀ c ∈ text.toList, c.isDigit = true) :
    quoted text = "'" ++ text ++ "'" := by
  have hquote : surroundingQuote text.toList = singleQuote := by
    have hnone : singleQuote ∉ text.toList := by
      intro hmem
      cases hdigits singleQuote hmem
    simp [surroundingQuote, hnone]
  have hshown : ∀ cs : List Char, (∀ c ∈ cs, c.isDigit = true) →
      cs.flatMap (quotedChar singleQuote) = cs := by
    intro cs hcs
    induction cs with
    | nil => rfl
    | cons c cs ih =>
      rw [List.flatMap_cons, quotedChar_of_isDigit (hcs c List.mem_cons_self),
        ih fun x hx => hcs x (List.mem_cons_of_mem c hx), List.singleton_append]
  rw [quoted, hquote, hshown _ hdigits]
  apply String.toList_inj.mp
  simp [singleQuote]

/-- The message about a numeral shows it as it was written. -/
theorem message_tooLarge_numeral {text : String} (hdigits : ∀ c ∈ text.toList, c.isDigit = true) :
    (SyntaxError.tooLarge text).message =
      "could not parse '" ++ text ++ "' as 64-bit integer" := by
  have hopen : "could not parse '" = "could not parse " ++ "'" := by decide
  have hclose : "' as 64-bit integer" = "'" ++ " as 64-bit integer" := by decide
  show "could not parse " ++ Text.quoted text ++ " as 64-bit integer" = _
  rw [Text.quoted_numeral hdigits, hopen, hclose]
  simp only [String.append_assoc]

/-! ### Numerals as texts -/

section Texts

variable {text : String} (hne : text.toList ≠ []) (hdigits : ∀ c ∈ text.toList, c.isDigit = true)

include hdigits

/-- Where an operand must start, a numeral is accepted or refused for its value. -/
theorem Parser.operand_numeral (expr : Precedence → Parser Expr) (block : Parser Block)
    (rest : List Token) :
    operand expr block (⟨.int, text⟩ :: rest) =
      if Number.ofDecimal text.toList ≤ 2 ^ 63 - 1 then
        .ok (.int (Number.ofDecimal text.toList), rest)
      else .error ⟨.tooLarge text, ⟨.int, text⟩ :: rest⟩ := by
  have hread := Number.ofNumeral?_eq hdigits
  split
  · next hle =>
    rw [if_pos hle] at hread
    simp [operand, hread]
  · next habove =>
    rw [if_neg habove] at hread
    simp [operand, hread, fail]

/-- A program that is one numeral. -/
theorem Parser.program_numeral (limit : Nat) :
    program (limit + 1) [⟨.int, text⟩] =
      if Number.ofDecimal text.toList ≤ 2 ^ 63 - 1 then
        .ok ([.expr (.int (Number.ofDecimal text.toList))], [])
      else .error ⟨.tooLarge text, [⟨.int, text⟩]⟩ := by
  have hoperand := operand_numeral hdigits (expression limit) (block limit) []
  split
  · next hle =>
    rw [if_pos hle, operand_ok] at hoperand
    have hexpr : expression (limit + 1) .lowest [⟨.int, text⟩] =
        .ok (.int (Number.ofDecimal text.toList), []) :=
      expression_ok.mpr ⟨_, _, hoperand, .refl, Nat.zero_le _⟩
    have hstatement : statement (expression (limit + 1)) (block (limit + 1)) [⟨.int, text⟩] =
        .ok (some (.expr (.int (Number.ofDecimal text.toList))), []) :=
      statement_ok.mpr (.inr (.inr (.inr (.inr ⟨rfl, _,
        expressionStatement_ok.mpr ⟨_, _, hexpr, .inr ⟨by decide, rfl⟩, rfl⟩, rfl⟩))))
    exact program_ok.mpr ⟨.head (nextStatement_some.mpr ⟨rfl, _, hstatement, rfl⟩) .refl, rfl⟩
  · next habove =>
    rw [if_neg habove] at hoperand
    have hstatement : expressionStatement (expression (limit + 1)) [⟨.int, text⟩] =
        .error ⟨.tooLarge text, [⟨.int, text⟩]⟩ :=
      bind_error.mpr (.inl (bind_error.mpr (.inl hoperand)))
    have hnext : nextStatement (expression (limit + 1)) (block (limit + 1)) endsProgram []
        [⟨.int, text⟩] = .error ⟨.tooLarge text, [⟨.int, text⟩]⟩ := by
      rw [nextStatement_apply [] rfl, map_apply, statement_apply]
      simp only [kindOf, map_apply, hstatement]
    have hreading := reading_nextStatement (shrinking_expression (limit + 1))
      (shrinking_block (limit + 1)) endsProgram
    exact bind_error.mpr (.inl ((loop_error hreading).mpr ⟨_, _, .refl, hnext⟩))

include hne

theorem scan_numeral : scan text = [⟨⟨.int, text⟩, 0⟩] := by
  have htokens : (scan text).map (·.token) = [⟨.int, text⟩] := by
    have hcut := tokensFrom_numeral hne hdigits breaks_nil
    rwa [List.append_nil, tokensFrom_nil, String.ofList_toList, ← map_token_scan] at hcut
  obtain ⟨c, cs, hcs⟩ := List.exists_cons_of_ne_nil hne
  have hc : Text.isBlank c = false := Text.isBlank_of_isDigit (hdigits c (hcs ▸ List.mem_cons_self))
  rw [scan_eq_placedFrom, hcs, placedFrom_cons hc] at htokens ⊢
  obtain ⟨htoken, hrest⟩ := List.cons.inj htokens
  rw [List.map_eq_nil_iff.mp hrest]
  exact congrArg (fun token => [(⟨token, 0⟩ : Placed)]) htoken

theorem tokenize_numeral : tokenize text = [⟨⟨.int, text⟩, 0⟩, ⟨.eof, text.length⟩] := by
  rw [tokenize_eq, scan_numeral hne hdigits]
  rfl

theorem parseWithin_numeral (limit : Nat) :
    parseWithin (limit + 1) text =
      if Number.ofDecimal text.toList ≤ 2 ^ 63 - 1 then
        .ok [.expr (.int (Number.ofDecimal text.toList))]
      else .error ⟨.tooLarge text, text, 0⟩ := by
  have hprogram := Parser.program_numeral hdigits limit
  rw [parseWithin, readText, scan_numeral hne hdigits, List.map_singleton, hprogram]
  by_cases hle : Number.ofDecimal text.toList ≤ 2 ^ 63 - 1
  · simp only [if_pos hle]
    rfl
  · simp only [if_neg hle]
    rfl

end Texts

/-- **Numerals.**  A run of digits is one token.  It is accepted exactly when its value is at
    most `2 ^ 63 - 1`, and then for this value; otherwise it is refused, and the message shows
    all its digits.  A conversion that is right for up to 19 digits is all that this takes. -/
theorem numerals_exact {text : String} (hne : text.toList ≠ [])
    (hdigits : ∀ c ∈ text.toList, c.isDigit = true) :
    tokenize text = [⟨⟨.int, text⟩, 0⟩, ⟨.eof, text.length⟩] ∧
    (∀ expr block rest, Parser.operand expr block (⟨.int, text⟩ :: rest) =
      if Number.ofDecimal text.toList ≤ 2 ^ 63 - 1 then
        .ok (.int (Number.ofDecimal text.toList), rest)
      else .error ⟨.tooLarge text, ⟨.int, text⟩ :: rest⟩) ∧
    (∀ limit, parseWithin (limit + 1) text =
      if Number.ofDecimal text.toList ≤ 2 ^ 63 - 1 then
        .ok [.expr (.int (Number.ofDecimal text.toList))]
      else .error ⟨.tooLarge text, text, 0⟩) ∧
    (SyntaxError.tooLarge text).message =
      "could not parse '" ++ text ++ "' as 64-bit integer" ∧
    ∀ convert : List Char → Option Nat,
      (∀ ds, ds ≠ [] → ds.length ≤ 19 → (∀ c ∈ ds, c.isDigit = true) →
        convert ds = some (Number.ofDecimal ds)) →
      Number.readBy convert text.toList = some (Number.ofNumeral? text.toList) := by
  refine ⟨tokenize_numeral hne hdigits, Parser.operand_numeral hdigits,
    parseWithin_numeral hne hdigits, ?_, fun convert hconvert => ?_⟩
  · exact message_tooLarge_numeral hdigits
  · exact Number.readBy_eq hconvert hdigits

/-- The conversion here refuses every run of more than 19 digits. -/
theorem numerals_exact_zeros :
    (∀ limit, parseWithin (limit + 1) "0009223372036854775807" =
      .ok [.expr (.int 9223372036854775807)]) ∧
    (∀ limit, parseWithin (limit + 1) "0009223372036854775808" =
      .error ⟨.tooLarge "0009223372036854775808", "0009223372036854775808", 0⟩) ∧
    (SyntaxError.tooLarge "0009223372036854775808").message =
      "could not parse '0009223372036854775808' as 64-bit integer" ∧
    Number.readBy (fun ds => if ds.length ≤ 19 then some (Number.ofDecimal ds) else none)
      "0009223372036854775808".toList = some none := by
  have hgreatest : Number.ofDecimal "0009223372036854775807".toList = 9223372036854775807 := by
    decide +kernel
  have habove : Number.ofDecimal "0009223372036854775808".toList = 9223372036854775808 := by
    decide +kernel
  have hnone : Number.ofNumeral? "0009223372036854775808".toList = none := by
    decide +kernel
  have hread := (@numerals_exact "0009223372036854775807" (by decide)
    (List.all_eq_true.mp rfl)).2.2.1
  obtain ⟨-, -, hrefused, hmessage, hconvert⟩ := @numerals_exact "0009223372036854775808"
    (by decide) (List.all_eq_true.mp rfl)
  rw [hgreatest] at hread
  rw [habove] at hrefused
  rw [hnone] at hconvert
  exact ⟨hread, hrefused, hmessage, hconvert _ fun ds _ hlength _ => if_pos hlength⟩

end Treewalk
