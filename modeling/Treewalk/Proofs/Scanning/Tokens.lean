/-
  Treewalk/Proofs/Scanning/Tokens.lean
  ====================================
  **The tokens of a text, without their places**, by recursion on the text:
  a blank is passed over, and anything else starts the token that is cut off
  next.  `Cursor.collect` finds the same tokens from every offset, so what is
  proved of `tokensFrom` holds of `scan`.
-/
import Treewalk.Token.Scan

namespace Treewalk

open Text

def tokensFrom : List Char → List Token
  | [] => []
  | c :: cs =>
    if isBlank c then tokensFrom cs
    else
      have := Cut.length_rest_first c cs
      (Cut.first c cs).token :: tokensFrom (Cut.first c cs).rest
termination_by cs => cs.length

theorem tokensFrom_nil : tokensFrom [] = [] := by
  rw [tokensFrom]

theorem tokensFrom_blank {c : Char} (hc : isBlank c = true) (cs : List Char) :
    tokensFrom (c :: cs) = tokensFrom cs := by
  rw [tokensFrom, if_pos hc]

theorem tokensFrom_cons {c : Char} (hc : isBlank c = false) (cs : List Char) :
    tokensFrom (c :: cs) = (Cut.first c cs).token :: tokensFrom (Cut.first c cs).rest := by
  rw [tokensFrom, if_neg (by simp [hc])]

theorem tokensFrom_singleton {c : Char} (hc : isBlank c = false) :
    tokensFrom [c] = [(Cut.first c []).token] := by
  have hrest : (Cut.first c []).rest = [] :=
    List.eq_nil_of_length_eq_zero (Nat.le_zero.mp (Cut.length_rest_first c []))
  rw [tokensFrom_cons hc, hrest, tokensFrom_nil]

/-- Blanks in front of a text have no tokens. -/
theorem tokensFrom_dropWhile (cs : List Char) :
    tokensFrom (cs.dropWhile isBlank) = tokensFrom cs := by
  induction cs with
  | nil => rfl
  | cons c cs ih =>
    by_cases hc : isBlank c = true
    · rw [List.dropWhile_cons_of_pos hc, ih, tokensFrom_blank hc]
    · rw [List.dropWhile_cons_of_neg hc]

/-! ### Cursors -/

/-- The next token of a cursor, in terms of the text that is left. -/
theorem Cursor.tokensFrom_rest (c : Cursor) :
    tokensFrom c.rest =
      match c.next? with
      | none => []
      | some (t, c') => t.token :: tokensFrom c'.rest := by
  have hskip : tokensFrom c.rest = tokensFrom c.skipBlanks.rest :=
    (tokensFrom_dropWhile c.rest).symm
  rw [hskip]
  cases hrest : c.skipBlanks.rest with
  | nil => rw [Cursor.next?_eq_none_iff.mpr hrest, tokensFrom_nil]
  | cons ch cs =>
    have hblank : isBlank ch = false := by
      have hhead := List.head?_dropWhile_not isBlank c.rest
      have hrest' : c.rest.dropWhile isBlank = ch :: cs := hrest
      rw [hrest'] at hhead
      simpa using hhead
    rw [Cursor.next?_eq_some_iff.mpr ⟨ch, cs, hrest, rfl, rfl⟩, tokensFrom_cons hblank]

theorem Cursor.map_token_collect (before : List Placed) (c : Cursor) :
    (c.collect before).1.map (·.token) =
      before.reverse.map (·.token) ++ tokensFrom c.rest := by
  rw [Cursor.tokensFrom_rest]
  unfold Cursor.collect
  split
  · next h => simp [h]
  · next t c' h =>
    have hless := Cursor.length_rest_next? h
    rw [Cursor.map_token_collect (t :: before) c']
    simp [h]
termination_by c.rest.length

theorem map_token_scan (text : String) :
    (scan text).map (·.token) = tokensFrom text.toList :=
  Cursor.map_token_collect [] (Cursor.ofText text)

/-- The tokens of a text end with the end token, which `scan` leaves out. -/
theorem map_token_tokenize (text : String) :
    (tokenize text).map (·.token) = tokensFrom text.toList ++ [Token.eof] := by
  have hscan := map_token_scan text
  simp only [scan] at hscan
  simp only [tokenize, Cursor.drain, List.map_append, hscan]
  rfl

end Treewalk
