/-
  Treewalk/Proofs/Scanning/WellFormed.lean
  ========================================
  **Well-formed tokens**: those whose text is one of their kind.  A scan makes
  no other tokens, so a tree that is read from a text can only hold names,
  operators and numerals that can be written again.
-/
import Treewalk.Proofs.Scanning.Tokens

namespace Treewalk

open Text

/-! ### Texts of a kind -/

/-- A name: word characters, at least one, that are no keyword. -/
def IsName (s : String) : Prop :=
  s.toList ≠ [] ∧ (∀ c ∈ s.toList, isWord c = true) ∧ Kind.ofWord s = .ident

/-- The characters of the text are looked at, and not all characters that there are. -/
instance (s : String) : Decidable (IsName s) :=
  have : Decidable (∀ c ∈ s.toList, isWord c = true) := List.decidableBAll _ _
  inferInstanceAs (Decidable (_ ∧ _ ∧ _))

/-- The text of the tokens of a kind that has one text only. -/
def Kind.spelling? : Kind → Option String
  | assign => some "="
  | plus => some "+"
  | minus => some "-"
  | bang => some "!"
  | asterisk => some "*"
  | slash => some "/"
  | less => some "<"
  | greater => some ">"
  | equal => some "=="
  | notEqual => some "!="
  | comma => some ","
  | semicolon => some ";"
  | leftParen => some "("
  | rightParen => some ")"
  | leftBrace => some "\x7b"
  | rightBrace => some "\x7d"
  | fnWord => some "fn"
  | letWord => some "let"
  | trueWord => some "true"
  | falseWord => some "false"
  | ifWord => some "if"
  | elseWord => some "else"
  | returnWord => some "return"
  | eof | illegal | ident | int => none

/-- The text of the token is one of its kind.  The end token is not part of any text. -/
def Token.WellFormed (t : Token) : Prop :=
  match t.kind with
  | .eof => False
  | .illegal => True
  | .ident => IsName t.text
  | .int => t.text.toList ≠ [] ∧ ∀ c ∈ t.text.toList, c.isDigit = true
  | kind => kind.spelling? = some t.text

theorem Token.WellFormed.ne_eof {t : Token} (h : t.WellFormed) : t.kind ≠ .eof := by
  intro hk
  simp [WellFormed, hk] at h

theorem Token.WellFormed.isName {t : Token} (h : t.WellFormed) (hk : t.kind = .ident) :
    IsName t.text := by
  simpa [WellFormed, hk] using h

theorem Token.WellFormed.isNumeral {t : Token} (h : t.WellFormed) (hk : t.kind = .int) :
    t.text.toList ≠ [] ∧ ∀ c ∈ t.text.toList, c.isDigit = true := by
  simpa [WellFormed, hk] using h

theorem Token.wellFormed_of_spelling? {k : Kind} {s : String} (h : k.spelling? = some s) :
    (Token.mk k s).WellFormed := by
  cases k <;> first | exact h | cases h

/-! ### Scanned tokens -/

theorem Kind.spelling?_of_ofChar? {c : Char} {k : Kind} (h : Kind.ofChar? c = some k) :
    k.spelling? = some (String.ofList [c]) := by
  unfold Kind.ofChar? at h
  split at h <;> cases h <;> rfl

/-- A word is an identifier, or a keyword and then the only text of its kind. -/
theorem Kind.spelling?_ofWord (word : String) :
    Kind.ofWord word = .ident ∨ (Kind.ofWord word).spelling? = some word := by
  cases hlookup : Kind.keywords.lookup word with
  | none =>
    left
    rw [Kind.ofWord, hlookup]
    rfl
  | some k =>
    right
    obtain ⟨before, after, hkeywords, -⟩ := List.lookup_eq_some_iff.mp hlookup
    have hmem : (word, k) ∈ Kind.keywords := by simp [hkeywords]
    have hall : ∀ p ∈ Kind.keywords, p.2.spelling? = some p.1 := by decide
    rw [Kind.ofWord, hlookup]
    exact hall (word, k) hmem

theorem Cut.forall_mem_run {p : Char → Bool} {c : Char} (hc : p c = true)
    (cs : List Char) : ∀ x ∈ c :: cs.takeWhile p, p x = true := by
  intro x hx
  rcases List.mem_cons.mp hx with rfl | hx
  · exact hc
  · exact List.all_eq_true.mp List.all_takeWhile x hx

theorem Token.wellFormed_word {word : List Char} (hne : word ≠ [])
    (hword : ∀ c ∈ word, isWord c = true) :
    (Token.mk (.ofWord (String.ofList word)) (String.ofList word)).WellFormed := by
  rcases Kind.spelling?_ofWord (String.ofList word) with hident | hkeyword
  · have hname : IsName (String.ofList word) := by
      refine ⟨?_, ?_, hident⟩
      · rwa [String.toList_ofList]
      · rwa [String.toList_ofList]
    rw [hident]
    exact hname
  · exact Token.wellFormed_of_spelling? hkeyword

theorem Cut.wellFormed_first (c : Char) (cs : List Char) : (Cut.first c cs).token.WellFormed := by
  have hform := Cut.form_first c cs
  generalize Cut.first c cs = cut at hform ⊢
  cases hform with
  | doubled hkind =>
    rcases hkind with ⟨rfl, rfl⟩ | ⟨rfl, rfl⟩ <;> exact Token.wellFormed_of_spelling? rfl
  | symbol hkind => exact Token.wellFormed_of_spelling? (Kind.spelling?_of_ofChar? hkind)
  | number hdigit =>
    have hrun := Cut.forall_mem_run (p := Char.isDigit) hdigit cs
    refine ⟨?_, ?_⟩
    · simp [Cut.run, Cut.token]
    · simpa only [Cut.run, Cut.token, String.toList_ofList] using hrun
  | word hword => exact Token.wellFormed_word (by simp) (Cut.forall_mem_run hword cs)
  | illegal => exact trivial

/-- All tokens of a text are well-formed. -/
theorem wellFormed_of_mem_tokensFrom (cs : List Char) :
    ∀ t ∈ tokensFrom cs, t.WellFormed := by
  cases cs with
  | nil => simp [tokensFrom_nil]
  | cons c cs =>
    by_cases hc : isBlank c = true
    · rw [tokensFrom_blank hc]
      exact wellFormed_of_mem_tokensFrom cs
    · have hless := Cut.length_rest_first c cs
      rw [tokensFrom_cons (by simpa using hc)]
      intro t ht
      rcases List.mem_cons.mp ht with rfl | ht
      · exact Cut.wellFormed_first c cs
      · exact wellFormed_of_mem_tokensFrom (Cut.first c cs).rest t ht
termination_by cs.length

end Treewalk
