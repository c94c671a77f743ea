/-
  Treewalk/Proofs/Parsing/FirstError.lean
  =======================================
  **Errors point at the first impossible token.**  A text that is refused is
  refused for the token at the offset of the error and for those in front of
  it: every text that starts with the same tokens is refused there for the same
  reason, whereas those in front of it alone are the start of a text that is
  parsed.
-/
import Treewalk.Proofs.Parsing.Exactness
import Treewalk.Proofs.Parsing.Locality
import Treewalk.Proofs.Parsing.ViablePrefix

namespace Treewalk

/-! ### The tokens of a text, with the end token -/

theorem map_token_take (text : String) (k : Nat) :
    ((tokenize text).take k).map (·.token) = (tokensFrom text.toList ++ [Token.eof]).take k := by
  rw [List.map_take, map_token_tokenize]

/-- The end token is the only one of its kind, and it stands at the end of the text. -/
theorem start_of_eof {text : String} {k : Nat} {t : Placed} (ht : (tokenize text)[k]? = some t)
    (hk : t.token.kind = .eof) : t.start = text.length := by
  rw [tokenize_eq] at ht
  rcases List.mem_append.mp (List.mem_of_getElem? ht) with hscan | hend
  · have htoken : t.token ∈ tokensFrom text.toList := by
      rw [← map_token_scan]
      exact List.mem_map_of_mem hscan
    exact absurd hk (readable_tokensFrom text _ htoken).ne_eof
  · rw [List.mem_singleton.mp hend]

/-- A failure is placed at the token that is the first one unread. -/
theorem exists_offset {text : String} {b r : List Token} (h : tokensFrom text.toList = b ++ r) :
    ∃ t, (tokenize text)[b.length]? = some t ∧
      startOfLast text (scan text) r.length = t.start := by
  have hlength : (scan text).length = b.length + r.length := by
    rw [length_scan, h, List.length_append]
  have hcount : (scan text).length - r.length = b.length := by omega
  have hdrop : (tokenize text).drop b.length =
      (scan text).drop b.length ++ [⟨.eof, text.length⟩] := by
    rw [tokenize_eq, List.drop_append_of_le_length (by omega)]
  rw [startOfLast, hcount, ← List.head?_drop, hdrop]
  cases (scan text).drop b.length with
  | nil => exact ⟨_, rfl, rfl⟩
  | cons t ts => exact ⟨t, rfl, rfl⟩

/-- Two texts that have the same tokens up to one of them go on with the same token, or end
    there. -/
theorem head?_eq_of_take_eq {b r v : List Token} (hu : Parser.Readable (b ++ r))
    (hv : Parser.Readable v)
    (h : (v ++ [Token.eof]).take (b.length + 1) =
      (b ++ r ++ [Token.eof]).take (b.length + 1)) :
    ∃ r', v = b ++ r' ∧ r'.head? = r.head? := by
  have hnone : ∀ {t : Token}, t.WellFormed → t ≠ Token.eof := by
    rintro _ ht rfl
    exact ht.ne_eof rfl
  have htake : (b ++ r ++ [Token.eof]).take (b.length + 1) =
      b ++ [r.head?.getD Token.eof] := by
    rw [List.append_assoc, List.take_length_add_append]
    cases r <;> rfl
  have hprefix : b ++ [r.head?.getD Token.eof] <+: v ++ [Token.eof] := by
    rw [← htake, ← h]
    exact List.take_prefix _ _
  rcases List.prefix_concat_iff.mp hprefix with heq | ⟨r', rfl⟩
  · obtain ⟨rfl, heof⟩ := List.append_inj' heq rfl
    cases r with
    | nil => exact ⟨[], (List.append_nil b).symm, rfl⟩
    | cons t r =>
      refine absurd ?_ (hnone (hu t (by simp)))
      simpa using heof
  · cases r with
    | nil => exact absurd rfl (hnone (hv Token.eof (by simp)))
    | cons t r => exact ⟨t :: r', by simp, rfl⟩

/-! ### Errors -/

/-- A text that goes on with the same token behind the same tokens is refused there, too. -/
theorem refused_again {limit limit' : Nat} {b r : List Token} {error : SyntaxError}
    {text : String} (hlimit : limit ≤ limit') (he : error ≠ .tooDeep)
    (hsame : ∀ t, t.head? = r.head? → Parser.program limit (b ++ t) = .error ⟨error, t⟩)
    (htext : ∃ r', tokensFrom text.toList = b ++ r' ∧ r'.head? = r.head?) :
    ∃ t, (tokenize text)[b.length]? = some t ∧
      parseWithin limit' text = .error ⟨error, text, t.start⟩ := by
  obtain ⟨r', hu, hhead⟩ := htext
  obtain ⟨t, ht, hoffset⟩ := exists_offset hu
  have hread : Parser.program limit' (tokensFrom text.toList) = .error ⟨error, r'⟩ := by
    rw [hu]
    refine Parser.program_mono hlimit (hsame r' hhead) fun r hr => he ?_
    cases hr
    rfl
  exact ⟨t, ht, parseWithin_error.mpr ⟨_, hread, congrArg (ParseError.mk error text) hoffset.symm⟩⟩

/-- What is completed to a program is the start of a text that is parsed. -/
theorem exists_parsed {limit : Nat} {b c : List Token} {p : Program}
    (hb : ∀ t ∈ b, t.Scanned) (hc : ∀ t ∈ c, t.Scanned)
    (hread : Parser.program limit (b ++ c) = .ok (p, [])) :
    ∃ text, ((tokenize text).take b.length).map (·.token) = b ∧
      ∀ limit', limit ≤ limit' → parseWithin limit' text = .ok p := by
  obtain ⟨text, htext⟩ := exists_text (u := b ++ c) fun t ht =>
    (List.mem_append.mp ht).elim (hb t) (hc t)
  refine ⟨text, ?_, fun limit' hlimit => parseWithin_ok.mpr ⟨[], ?_⟩⟩
  · rw [map_token_take, htext, List.append_assoc, List.take_left]
  · rw [htext]
    exact Parser.program_mono hlimit hread nofun

/-- **Errors point at the first impossible token.**

    If a text is refused, and not for nesting too deep, then the offset of the error is the start
    of one of its tokens, which may be the end token at the end of the text.  Every text with
    the same tokens up to and with this one is refused for the same reason, at the start of its
    own token.  And some text with the same tokens in front of it is parsed.

    The limit on nesting is left out of account by raising it.  One level more is enough for
    what is wanted behind those tokens, as for the test that has to follow `if`. -/
theorem parseWithin_error_first {limit : Nat} {text : String} {e : ParseError}
    (h : parseWithin limit text = .error e) (he : e.error ≠ .tooDeep) :
    ∃ k t, (tokenize text)[k]? = some t ∧ e.offset = t.start ∧
      (t.token.kind = .eof → t.start = text.length) ∧
      (∀ text' limit', limit ≤ limit' →
        ((tokenize text').take (k + 1)).map (·.token) =
          ((tokenize text).take (k + 1)).map (·.token) →
        ∃ t', (tokenize text')[k]? = some t' ∧
          parseWithin limit' text' = .error ⟨e.error, text', t'.start⟩) ∧
      ∃ text' p, ((tokenize text').take k).map (·.token) =
          ((tokenize text).take k).map (·.token) ∧
        ∀ limit', limit < limit' → parseWithin limit' text' = .ok p := by
  obtain ⟨⟨error, r⟩, hread, rfl⟩ := parseWithin_error.mp h
  obtain ⟨b, hu, hsame⟩ := Parser.local_program limit _ (.error error) r hread
  obtain ⟨t, ht, hoffset⟩ := exists_offset hu
  refine ⟨b.length, t, ht, hoffset, start_of_eof ht, ?_, ?_⟩
  · intro text' limit' hlimit htake
    rw [map_token_take, map_token_take, hu] at htake
    exact refused_again hlimit he hsame (head?_eq_of_take_eq (hu ▸ readable_tokensFrom text)
      (readable_tokensFrom text') htake)
  · obtain ⟨b', c, p, hu', hc, hcompleted⟩ := Parser.program_viable hread he
    obtain rfl : b' = b := List.append_cancel_right (hu'.symm.trans hu)
    have hb : ∀ t ∈ b', t.Scanned := fun t ht =>
      ⟨text.toList, hu ▸ List.mem_append_left r ht⟩
    obtain ⟨text', htake, hparse⟩ := exists_parsed hb hc hcompleted
    refine ⟨text', p, ?_, fun limit' => hparse limit'⟩
    rw [htake, map_token_take, hu, List.append_assoc, List.take_left]

/-- Where a parenthesis is left open, the end token is refused. -/
theorem parseWithin_error_first_open :
    ∃ e, parseWithin 2 "(1" = .error e ∧ e.error = .unexpected .rightParen .eof ∧
      ∃ k t, (tokenize "(1")[k]? = some t ∧ e.offset = t.start ∧
        (∀ text limit, 2 ≤ limit →
          ((tokenize text).take (k + 1)).map (·.token) =
            ((tokenize "(1").take (k + 1)).map (·.token) →
          ∃ t, (tokenize text)[k]? = some t ∧
            parseWithin limit text = .error ⟨.unexpected .rightParen .eof, text, t.start⟩) ∧
        ∃ text p, ((tokenize text).take k).map (·.token) =
            ((tokenize "(1").take k).map (·.token) ∧
          ∀ limit, 2 < limit → parseWithin limit text = .ok p := by
  have htokens : tokensFrom "(1".toList = [⟨.leftParen, "("⟩, ⟨.int, "1"⟩] := by
    have hopen : tokensFrom ('(' :: (['1'] ++ [])) =
        ⟨.leftParen, "("⟩ :: tokensFrom (['1'] ++ []) := tokensFrom_symbol rfl (by decide)
    have hone : tokensFrom (['1'] ++ []) = ⟨.int, "1"⟩ :: tokensFrom [] :=
      tokensFrom_numeral (List.cons_ne_nil _ _) (List.all_eq_true.mp rfl) breaks_nil
    rw [hone, tokensFrom_nil] at hopen
    exact hopen
  have hparse := parseWithin_error.mpr ⟨⟨.unexpected .rightParen .eof, []⟩,
    show Parser.program 2 (tokensFrom "(1".toList) = _ by rw [htokens]; rfl, rfl⟩
  obtain ⟨k, t, ht, hoffset, -, hrefused, hparsed⟩ :=
    parseWithin_error_first hparse (by decide)
  exact ⟨_, hparse, rfl, k, t, ht, hoffset, hrefused, hparsed⟩

end Treewalk
