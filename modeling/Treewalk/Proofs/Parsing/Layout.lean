/-
  Treewalk/Proofs/Parsing/Layout.lean
  ===================================
  **Layout does not matter.**  The tokens of a text are those of every text in
  which they are written down again with blanks between them, and two texts
  with the same tokens are parsed to the same tree or refused for the same
  reason at the same token.  Where the tokens start is only ever read to place
  an error.
-/
import Treewalk.Proofs.Parsing.FirstError

namespace Treewalk

/-- The texts of the tokens are written down in order, with blanks between any two of them, and
    perhaps in front of the first and behind the last. -/
def LaidOut (tokens : List Token) (text : String) : Prop :=
  ∃ lead pieces, text.toList = lead ++ spaced pieces ∧ pieces.map (·.1) = tokens ∧
    Blank lead ∧ (∀ piece ∈ pieces, Blank piece.2) ∧ ∀ piece ∈ pieces.dropLast, piece.2 ≠ []

theorem LaidOut.tokensFrom_eq {tokens : List Token} {text : String} (h : LaidOut tokens text)
    (hscanned : ∀ t ∈ tokens, t.Scanned) : tokensFrom text.toList = tokens := by
  obtain ⟨lead, pieces, htext, rfl, hlead, hblank, hbetween⟩ := h
  have hpieces : ∀ piece ∈ pieces, piece.1.Scanned := fun piece hpiece =>
    hscanned piece.1 (List.mem_map_of_mem hpiece)
  rw [htext, hlead.tokensFrom_append, tokensFrom_spaced hpieces hblank hbetween]

/-- The text is refused at the start of its token of that number, counted from zero. -/
def RefusedAt (limit : Nat) (text : String) (error : SyntaxError) (k : Nat) : Prop :=
  ∃ t, (tokenize text)[k]? = some t ∧ parseWithin limit text = .error ⟨error, text, t.start⟩

theorem refusedAt_of_program {limit : Nat} {text : String} {error : SyntaxError}
    {b r : List Token} (hu : tokensFrom text.toList = b ++ r)
    (hread : Parser.program limit (b ++ r) = .error ⟨error, r⟩) :
    RefusedAt limit text error b.length := by
  obtain ⟨t, ht, hoffset⟩ := exists_offset hu
  rw [← hu] at hread
  exact ⟨t, ht, parseWithin_error.mpr
    ⟨_, hread, congrArg (ParseError.mk error text) hoffset.symm⟩⟩

/-- A text with the tokens of another one is parsed as that one is, with errors at its own
    tokens. -/
theorem parseWithin_of_tokens_eq (limit : Nat) {text text' : String}
    (h : tokensFrom text.toList = tokensFrom text'.toList) :
    (∃ p, parseWithin limit text = .ok p ∧ parseWithin limit text' = .ok p) ∨
      ∃ error k, RefusedAt limit text error k ∧ RefusedAt limit text' error k := by
  cases hread : Parser.program limit (tokensFrom text.toList) with
  | ok result =>
    exact .inl ⟨result.1, parseWithin_ok.mpr ⟨result.2, hread⟩,
      parseWithin_ok.mpr ⟨result.2, h ▸ hread⟩⟩
  | error failure =>
    obtain ⟨error, r⟩ := failure
    obtain ⟨b, hu, -⟩ := Parser.local_program limit _ (.error error) r hread
    rw [hu] at hread
    exact .inr ⟨error, b.length, refusedAt_of_program hu hread,
      refusedAt_of_program (h.symm.trans hu) hread⟩

/-- **Layout does not matter.**

    The tokens of a text, illegal ones included, are also those of every text in which they are
    laid out in another way, although some may have stood side by side.  And any two texts with
    the same tokens are parsed to the same tree, or both are refused for the same reason, which
    may be the limit on nesting, at the token with the same number.  The offset of the error is
    the start of that token in the text at hand. -/
theorem layout_irrelevant :
    (∀ text text' tokens, (tokenize text).map (·.token) = tokens ++ [Token.eof] →
      LaidOut tokens text' → (tokenize text').map (·.token) = (tokenize text).map (·.token)) ∧
    ∀ limit text text', (tokenize text).map (·.token) = (tokenize text').map (·.token) →
      (∃ p, parseWithin limit text = .ok p ∧ parseWithin limit text' = .ok p) ∨
        ∃ error k, RefusedAt limit text error k ∧ RefusedAt limit text' error k := by
  constructor
  · intro text text' tokens htokens hlaid
    rw [map_token_tokenize] at htokens
    obtain rfl := List.append_cancel_right htokens
    have hsame := hlaid.tokensFrom_eq fun t ht => ⟨text.toList, ht⟩
    rw [map_token_tokenize, map_token_tokenize, hsame]
  · intro limit text text' hsame
    rw [map_token_tokenize, map_token_tokenize] at hsame
    exact parseWithin_of_tokens_eq limit (List.append_cancel_right hsame)

/-- A word and a numeral that follows it at once may be set apart. -/
theorem layout_irrelevant_adjacent :
    (tokenize "\tx 1\n").map (·.token) = (tokenize "x1").map (·.token) ∧
      parseWithin 1 "x1" = .ok [.expr (.ident "x"), .expr (.int 1)] ∧
      parseWithin 1 "\tx 1\n" = .ok [.expr (.ident "x"), .expr (.int 1)] := by
  have hread : tokensFrom "x1".toList = [⟨.ident, "x"⟩, ⟨.int, "1"⟩] := by
    have hword : tokensFrom ['x', '1'] = ⟨.ident, "x"⟩ :: tokensFrom ['1'] := tokensFrom_cons rfl _
    have hone : tokensFrom ['1'] = [⟨.int, "1"⟩] := tokensFrom_singleton rfl
    rw [hone] at hword
    exact hword
  have hlaid : LaidOut [⟨.ident, "x"⟩, ⟨.int, "1"⟩] "\tx 1\n" :=
    ⟨['\t'], [(⟨.ident, "x"⟩, [' ']), (⟨.int, "1"⟩, ['\n'])], by decide, rfl, by decide, by decide,
      by decide⟩
  have htokens := layout_irrelevant.1 "x1" "\tx 1\n" _
    (by rw [map_token_tokenize, hread]) hlaid
  have hparse : parseWithin 1 "x1" = .ok [.expr (.ident "x"), .expr (.int 1)] :=
    parseWithin_ok.mpr ⟨[], by rw [hread]; rfl⟩
  rcases layout_irrelevant.2 1 "x1" "\tx 1\n" htokens.symm with
    ⟨p, hp, hp'⟩ | ⟨error, k, ⟨t, -, herror⟩, -⟩
  · rw [hparse] at hp
    cases hp
    exact ⟨htokens, hparse, hp'⟩
  · rw [hparse] at herror
    cases herror

end Treewalk
