/-
  Treewalk/Proofs/Scanning/Boundary.lean
  ======================================
  **Where a token ends.**  A scan takes as much as it can, so a token at the
  front of a text is the expected one only if what follows does not go on with
  it: a word or a numeral must be followed by a character of another class,
  and `=` or `!` by anything but `=`.
-/
import Treewalk.Proofs.Scanning.WellFormed

namespace Treewalk

open Text

/-! ### Boundaries -/

/-- No token in front of the text goes on into it. -/
def Breaks (rest : List Char) : Prop :=
  ∀ c ∈ rest.head?, isWord c = false ∧ c.isDigit = false ∧ c ≠ '='

theorem breaks_nil : Breaks [] := nofun

theorem breaks_cons {c : Char} {rest : List Char} :
    Breaks (c :: rest) ↔ isWord c = false ∧ c.isDigit = false ∧ c ≠ '=' := by
  simp [Breaks]

theorem breaks_blank {c : Char} (hc : isBlank c = true) (rest : List Char) :
    Breaks (c :: rest) := by
  refine breaks_cons.mpr ⟨isWord_of_isBlank hc, ?_, ?_⟩
  · cases hdigit : c.isDigit with
    | false => rfl
    | true => exact absurd hc (by simp [isBlank_of_isDigit hdigit])
  · rintro rfl
    exact absurd hc (by decide)

theorem Breaks.head?_ne {rest : List Char} (h : Breaks rest) : rest.head? ≠ some '=' := by
  intro hhead
  exact (h '=' hhead).2.2 rfl

/-! ### Tokens of one character -/

theorem tokensFrom_symbol {c : Char} {k : Kind} {rest : List Char} (hk : Kind.ofChar? c = some k)
    (hnext : c = '=' ∨ c = '!' → rest.head? ≠ some '=') :
    tokensFrom (c :: rest) = ⟨k, String.ofList [c]⟩ :: tokensFrom rest := by
  rw [tokensFrom_cons (Kind.classes_of_ofChar? hk).1, (Cut.Form.symbol hk hnext).eq_first]
  rfl

theorem tokensFrom_doubled {c : Char} {k : Kind} (rest : List Char)
    (hk : c = '=' ∧ k = .equal ∨ c = '!' ∧ k = .notEqual) :
    tokensFrom (c :: '=' :: rest) = ⟨k, String.ofList [c, '=']⟩ :: tokensFrom rest := by
  rcases hk with ⟨rfl, rfl⟩ | ⟨rfl, rfl⟩ <;> exact tokensFrom_cons rfl _

/-! ### Runs -/

theorem Cut.run_append {p : Char → Bool} (c : Char) {cs rest : List Char}
    (kind : List Char → Kind) (hcs : ∀ x ∈ cs, p x = true)
    (hrest : ∀ x ∈ rest.head?, p x = false) :
    Cut.run kind p c (cs ++ rest) = ⟨kind (c :: cs), c :: cs, rest⟩ := by
  have htake : rest.takeWhile p = [] := by
    cases rest with
    | nil => rfl
    | cons x rest => exact List.takeWhile_cons_of_neg (by simp [hrest x rfl])
  have hdrop : rest.dropWhile p = rest := by
    cases rest with
    | nil => rfl
    | cons x rest => exact List.dropWhile_cons_of_neg (by simp [hrest x rfl])
  rw [Cut.run, List.takeWhile_append_of_pos hcs, List.dropWhile_append_of_pos hcs, htake, hdrop,
    List.append_nil]

theorem tokensFrom_word {word rest : List Char} (hne : word ≠ [])
    (hword : ∀ c ∈ word, isWord c = true) (hrest : Breaks rest) :
    tokensFrom (word ++ rest) =
      ⟨.ofWord (String.ofList word), String.ofList word⟩ :: tokensFrom rest := by
  cases word with
  | nil => exact absurd rfl hne
  | cons c cs =>
    have hc : isWord c = true := hword c List.mem_cons_self
    have hstop : ∀ x ∈ rest.head?, isWord x = false := fun x hx => (hrest x hx).1
    have hcut := Cut.run_append c (fun word => .ofWord (String.ofList word))
      (fun x hx => hword x (List.mem_cons_of_mem c hx)) hstop
    rw [List.cons_append, tokensFrom_cons (isBlank_of_isWord hc), (Cut.Form.word hc).eq_first, hcut]
    rfl

theorem tokensFrom_numeral {digits rest : List Char} (hne : digits ≠ [])
    (hdigits : ∀ c ∈ digits, c.isDigit = true) (hrest : Breaks rest) :
    tokensFrom (digits ++ rest) = ⟨.int, String.ofList digits⟩ :: tokensFrom rest := by
  cases digits with
  | nil => exact absurd rfl hne
  | cons c cs =>
    have hc : c.isDigit = true := hdigits c List.mem_cons_self
    have hstop : ∀ x ∈ rest.head?, x.isDigit = false := fun x hx => (hrest x hx).2.1
    have hcut := Cut.run_append c (fun _ => .int)
      (fun x hx => hdigits x (List.mem_cons_of_mem c hx)) hstop
    rw [List.cons_append, tokensFrom_cons (isBlank_of_isDigit hc), (Cut.Form.number hc).eq_first,
      hcut]
    rfl

/-! ### Tokens with one text -/

theorem tokensFrom_spelled {k : Kind} {s : String} {rest : List Char}
    (hs : k.spelling? = some s) (hrest : Breaks rest) :
    tokensFrom (s.toList ++ rest) = ⟨k, s⟩ :: tokensFrom rest := by
  cases k <;> cases hs <;> first
    | exact tokensFrom_symbol rfl fun _ => hrest.head?_ne
    | exact tokensFrom_doubled rest (.inl ⟨rfl, rfl⟩)
    | exact tokensFrom_doubled rest (.inr ⟨rfl, rfl⟩)
    | exact tokensFrom_word (by decide) (List.all_eq_true.mp rfl) hrest

/-! ### One text behind another -/

/-- What is cut off in front is cut off too when a text follows that breaks tokens. -/
theorem Cut.first_append (c : Char) (cs : List Char) {rest : List Char} (hrest : Breaks rest) :
    Cut.first c (cs ++ rest) =
      ⟨(Cut.first c cs).kind, (Cut.first c cs).lexeme, (Cut.first c cs).rest ++ rest⟩ := by
  have hform := Cut.form_first c cs
  have hrun : ∀ (kind : List Char → Kind) {p : Char → Bool}, (∀ x ∈ rest.head?, p x = false) →
      Cut.run kind p c (cs ++ rest) =
        ⟨kind (c :: cs.takeWhile p), c :: cs.takeWhile p, cs.dropWhile p ++ rest⟩ := by
    intro kind p hp
    have hstop : ∀ x ∈ (cs.dropWhile p ++ rest).head?, p x = false := by
      have hhead := List.head?_dropWhile_not p cs
      intro x hx
      cases hdrop : cs.dropWhile p with
      | nil =>
        rw [hdrop] at hx
        exact hp x hx
      | cons y ys =>
        rw [hdrop] at hx hhead
        cases hx
        simpa using hhead
    have hparts : cs ++ rest = cs.takeWhile p ++ (cs.dropWhile p ++ rest) := by
      rw [← List.append_assoc, List.takeWhile_append_dropWhile]
    rw [hparts]
    exact Cut.run_append c kind (fun x hx => List.all_eq_true.mp List.all_takeWhile x hx) hstop
  generalize Cut.first c cs = cut at hform ⊢
  cases hform with
  | doubled hkind => exact (Cut.Form.doubled hkind).eq_first
  | symbol hkind hnext =>
    refine (Cut.Form.symbol hkind fun hsingle => ?_).eq_first
    cases cs with
    | nil => exact hrest.head?_ne
    | cons => exact hnext hsingle
  | number hdigit =>
    exact (Cut.Form.number hdigit).eq_first.trans (hrun _ fun x hx => (hrest x hx).2.1)
  | word hword =>
    exact (Cut.Form.word hword).eq_first.trans (hrun _ fun x hx => (hrest x hx).1)
  | illegal hnone hdigit hword => exact (Cut.Form.illegal hnone hdigit hword).eq_first

theorem tokensFrom_append (cs : List Char) {rest : List Char} (hrest : Breaks rest) :
    tokensFrom (cs ++ rest) = tokensFrom cs ++ tokensFrom rest := by
  induction hn : cs.length using Nat.strongRecOn generalizing cs with
  | ind n ih =>
    cases cs with
    | nil => rw [tokensFrom_nil, List.nil_append, List.nil_append]
    | cons c cs =>
      rw [List.length_cons] at hn
      rw [List.cons_append]
      by_cases hc : isBlank c = true
      · rw [tokensFrom_blank hc, tokensFrom_blank hc]
        exact ih cs.length (by omega) cs rfl
      · have hblank : isBlank c = false := by simpa using hc
        have hless := Cut.length_rest_first c cs
        rw [tokensFrom_cons hblank, tokensFrom_cons hblank, Cut.first_append c cs hrest,
          ih _ (by omega) (Cut.first c cs).rest rfl]
        rfl

end Treewalk
