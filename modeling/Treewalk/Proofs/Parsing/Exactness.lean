/-
  Treewalk/Proofs/Parsing/Exactness.lean
  ======================================
  **The parser accepts the grammar, and builds its tree.**  Soundness and
  completeness are put together and carried over from tokens to texts.

  That no text has two trees is a consequence: every derivation is found by
  the parser when its limit is high enough, and the parser is a function.
-/
import Treewalk.Parser.Source
import Treewalk.Proofs.Parsing.Completeness
import Treewalk.Proofs.Parsing.Limit
import Treewalk.Proofs.Parsing.Soundness

namespace Treewalk

/-! ### Token sequences -/

/-- The grammar is unambiguous. -/
theorem Derives.program_unique {p q : Program} {u : List Token} (hp : Derives (.statements p) u [])
    (hq : Derives (.statements q) u []) : q = p := by
  have hpq := (hq.program_ok (Nat.le_refl _)).symm.trans (hp.program_ok (Nat.le_refl _))
  simpa using hpq

/-- Nesting is the only reason why a program can be refused, and only where there are more
    tokens than the limit allows levels. -/
theorem Derives.program_ok_or_tooDeep {p : Program} {u : List Token}
    (h : Derives (.statements p) u []) (limit : Nat) :
    Parser.program limit u = .ok (p, []) ∨
      limit < u.length ∧ ∃ r, Parser.program limit u = .error ⟨.tooDeep, r⟩ := by
  by_cases hlimit : u.length ≤ limit
  · exact .inl (h.program_ok hlimit)
  -- With the limit raised to the number of tokens, the program is read for certain.
  · have hless : limit < u.length := Nat.lt_of_not_le hlimit
    rcases Parser.approximates_program (Nat.le_of_lt hless) u with heq | hdeep
    · exact .inl (heq.trans (h.program_ok (Nat.le_refl _)))
    · exact .inr ⟨hless, hdeep⟩

/-! ### Texts -/

/-- The tokens of the text, up to the end token, are derived as the program. -/
def Denotes (text : String) (p : Program) : Prop :=
  ∃ u, (tokenize text).map (·.token) = u ++ [Token.eof] ∧ Derives (.statements p) u []

theorem denotes_iff {text : String} {p : Program} :
    Denotes text p ↔ Derives (.statements p) (tokensFrom text.toList) [] := by
  constructor
  · rintro ⟨u, hu, h⟩
    rw [map_token_tokenize] at hu
    rwa [List.append_cancel_right hu]
  · intro h
    exact ⟨_, map_token_tokenize text, h⟩

theorem length_scan (text : String) : (scan text).length = (tokensFrom text.toList).length := by
  rw [← map_token_scan, List.length_map]

theorem readable_tokensFrom (text : String) : Parser.Readable (tokensFrom text.toList) :=
  wellFormed_of_mem_tokensFrom text.toList

theorem parseWithin_ok {limit : Nat} {text : String} {p : Program} :
    parseWithin limit text = .ok p ↔
      ∃ r, Parser.program limit (tokensFrom text.toList) = .ok (p, r) := by
  simp only [parseWithin, readText, map_token_scan]
  cases hread : Parser.program limit (tokensFrom text.toList) with
  | error f => simp [Functor.map, Except.map]
  | ok result =>
    obtain ⟨q, r⟩ := result
    simp [Functor.map, Except.map]

/-- A failure is placed in the text, which does not change its cause. -/
theorem parseWithin_error {limit : Nat} {text : String} {e : ParseError} :
    parseWithin limit text = .error e ↔
      ∃ f, Parser.program limit (tokensFrom text.toList) = .error f ∧
        e = f.locate text (scan text) := by
  simp only [parseWithin, readText, map_token_scan]
  cases hread : Parser.program limit (tokensFrom text.toList) with
  | error f => simp [Functor.map, Except.map, eq_comm]
  | ok result => simp [Functor.map, Except.map]

theorem denotes_of_parseWithin {limit : Nat} {text : String} {p : Program}
    (h : parseWithin limit text = .ok p) : Denotes text p := by
  obtain ⟨r, hread⟩ := parseWithin_ok.mp h
  exact denotes_iff.mpr (Parser.program_sound (readable_tokensFrom text) hread).2

theorem Denotes.parseWithin {text : String} {p : Program} (h : Denotes text p) (limit : Nat) :
    parseWithin limit text = .ok p ∨
      limit < (scan text).length ∧ ∃ e, parseWithin limit text = .error e ∧ e.error = .tooDeep := by
  rcases (denotes_iff.mp h).program_ok_or_tooDeep limit with hread | ⟨hless, r, hdeep⟩
  · exact .inl (parseWithin_ok.mpr ⟨_, hread⟩)
  · rw [length_scan]
    exact .inr ⟨hless, _, parseWithin_error.mpr ⟨_, hdeep, rfl⟩, rfl⟩

theorem Denotes.unique {text : String} {p q : Program} (hp : Denotes text p)
    (hq : Denotes text q) : q = p :=
  (denotes_iff.mp hp).program_unique (denotes_iff.mp hq)

/-- **Exactness.**  A text that the grammar derives denotes one program only, and this is
    parsed, unless a text of more tokens than the limit is nested too deep.  Any other text
    is refused. -/
theorem parseWithin_exact (limit : Nat) (text : String) :
    (∀ p, Denotes text p → (∀ q, Denotes text q → q = p) ∧
      (parseWithin limit text = .ok p ∨ limit < (scan text).length ∧
        ∃ e, parseWithin limit text = .error e ∧ e.error = .tooDeep)) ∧
    ((¬∃ p, Denotes text p) → ∃ e, parseWithin limit text = .error e) := by
  constructor
  · intro p hp
    exact ⟨fun q hq => hp.unique hq, hp.parseWithin limit⟩
  · intro hnone
    cases hparse : parseWithin limit text with
    | error e => exact ⟨e, rfl⟩
    | ok p => exact absurd ⟨p, denotes_of_parseWithin hparse⟩ hnone

end Treewalk
