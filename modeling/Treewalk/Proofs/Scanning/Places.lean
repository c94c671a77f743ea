/-
  Treewalk/Proofs/Scanning/Places.lean
  ====================================
  **The tokens of a text with their places**, by recursion on the text.  Where
  a text starts only moves its tokens, and a text that breaks tokens is scanned
  behind another one as it is by itself.
-/
import Treewalk.Proofs.Scanning.Boundary

namespace Treewalk

open Text

/-- The tokens of a text of which the first character stands at the offset `k`. -/
def placedFrom (k : Nat) : List Char → List Placed
  | [] => []
  | c :: cs =>
    if isBlank c then placedFrom (k + 1) cs
    else
      have := Cut.length_rest_first c cs
      ⟨(Cut.first c cs).token, k⟩ ::
        placedFrom (k + (Cut.first c cs).lexeme.length) (Cut.first c cs).rest
termination_by cs => cs.length

theorem placedFrom_nil (k : Nat) : placedFrom k [] = [] := by
  rw [placedFrom]

theorem placedFrom_blank {c : Char} (hc : isBlank c = true) (k : Nat) (cs : List Char) :
    placedFrom k (c :: cs) = placedFrom (k + 1) cs := by
  rw [placedFrom, if_pos hc]

theorem placedFrom_cons {c : Char} (hc : isBlank c = false) (k : Nat) (cs : List Char) :
    placedFrom k (c :: cs) = ⟨(Cut.first c cs).token, k⟩ ::
      placedFrom (k + (Cut.first c cs).lexeme.length) (Cut.first c cs).rest := by
  rw [placedFrom, if_neg (by simp [hc])]

/-! ### Cursors -/

theorem placedFrom_dropWhile (k : Nat) (cs : List Char) :
    placedFrom (k + (cs.takeWhile isBlank).length) (cs.dropWhile isBlank) = placedFrom k cs := by
  induction cs generalizing k with
  | nil => rfl
  | cons c cs ih =>
    by_cases hc : isBlank c = true
    · rw [List.takeWhile_cons_of_pos hc, List.dropWhile_cons_of_pos hc, placedFrom_blank hc,
        List.length_cons, ← ih, Nat.add_assoc, Nat.add_comm 1]
    · rw [List.takeWhile_cons_of_neg hc, List.dropWhile_cons_of_neg hc]
      rfl

theorem Cursor.collect_eq_placedFrom (before : List Placed) (c : Cursor) :
    (c.collect before).1 = before.reverse ++ placedFrom c.offset c.rest := by
  have hskip : placedFrom c.offset c.rest = placedFrom c.skipBlanks.offset c.skipBlanks.rest :=
    (placedFrom_dropWhile c.offset c.rest).symm
  rw [hskip]
  unfold Cursor.collect
  split
  · next hnone => rw [Cursor.next?_eq_none_iff.mp hnone, placedFrom_nil, List.append_nil]
  · next t c' hnext =>
    have hless := Cursor.length_rest_next? hnext
    obtain ⟨ch, cs, hrest, rfl, rfl⟩ := Cursor.next?_eq_some_iff.mp hnext
    have hblank : isBlank ch = false := by
      have hhead := List.head?_dropWhile_not isBlank c.rest
      rw [show c.rest.dropWhile isBlank = ch :: cs from hrest] at hhead
      simpa using hhead
    rw [Cursor.collect_eq_placedFrom _ _, hrest, placedFrom_cons hblank, List.reverse_cons,
      List.append_assoc]
    rfl
termination_by c.rest.length

theorem scan_eq_placedFrom (text : String) : scan text = placedFrom 0 text.toList :=
  Cursor.collect_eq_placedFrom [] (Cursor.ofText text)

/-! ### Texts that start elsewhere -/

/-- The token, so many characters further on. -/
def Placed.shift (n : Nat) (t : Placed) : Placed := ⟨t.token, n + t.start⟩

theorem placedFrom_add (n k : Nat) (cs : List Char) :
    placedFrom (n + k) cs = (placedFrom k cs).map (Placed.shift n) := by
  induction k, cs using placedFrom.induct with
  | case1 k => rw [placedFrom_nil, placedFrom_nil, List.map_nil]
  | case2 k c cs hc ih =>
    rw [placedFrom_blank hc, placedFrom_blank hc, Nat.add_assoc, ih]
  | case3 k c cs hc _ ih =>
    have hblank : isBlank c = false := by simpa using hc
    rw [placedFrom_cons hblank, placedFrom_cons hblank, List.map_cons, Nat.add_assoc, ih]
    rfl

/-! ### One text behind another -/

theorem placedFrom_append (k : Nat) (cs : List Char) {rest : List Char} (hrest : Breaks rest) :
    placedFrom k (cs ++ rest) = placedFrom k cs ++ placedFrom (k + cs.length) rest := by
  induction k, cs using placedFrom.induct with
  | case1 k => rw [placedFrom_nil]; rfl
  | case2 k c cs hc ih =>
    rw [List.cons_append, placedFrom_blank hc, placedFrom_blank hc, ih, List.length_cons,
      Nat.add_assoc, Nat.add_comm 1]
  | case3 k c cs hc _ ih =>
    have hblank : isBlank c = false := by simpa using hc
    have hlength := congrArg List.length (Cut.lexeme_append_rest_first c cs)
    rw [List.length_append] at hlength
    rw [List.cons_append, placedFrom_cons hblank, placedFrom_cons hblank,
      Cut.first_append c cs hrest, ih, Nat.add_assoc, hlength]
    rfl

/-- A semicolon stands between the tokens of the text in front of it and those of the text behind
    it, which are moved. -/
theorem scan_semicolon (text rest : String) :
    scan (text ++ ";" ++ rest) = scan text ++ ⟨⟨.semicolon, ";"⟩, text.length⟩ ::
      (scan rest).map (Placed.shift (text.length + 1)) := by
  have hsemicolon : Breaks (';' :: rest.toList) := breaks_cons.mpr (by decide)
  have hfirst : Cut.first ';' rest.toList = ⟨.semicolon, [';'], rest.toList⟩ :=
    (Cut.Form.symbol rfl fun h => absurd h (by decide)).eq_first
  have htext : (text ++ ";" ++ rest).toList = text.toList ++ ';' :: rest.toList := by
    rw [String.toList_append, String.toList_append, List.append_assoc]
    rfl
  rw [scan_eq_placedFrom, scan_eq_placedFrom, scan_eq_placedFrom, htext,
    placedFrom_append 0 _ hsemicolon, placedFrom_cons rfl, hfirst, Nat.zero_add,
    String.length_toList, ← placedFrom_add]
  rfl

end Treewalk
