/-
  Treewalk/Proofs/Scanning/Layout.lean
  ====================================
  **Tokens can be written down again.**  A token of some text is scanned as the
  same token when its text stands alone, and so it is among others when blanks
  stand between any two.  So any sequence of such tokens is that of a text.
  This holds of illegal tokens too.

  Texts that are joined by semicolons keep the tokens that they had.  The end
  token of a text starts where the text ends.
-/
import Treewalk.Proofs.Scanning.Boundary

namespace Treewalk

open Text

/-! ### Tokens that stand alone -/

/-- The token is one of some text. -/
def Token.Scanned (t : Token) : Prop := ∃ cs, t ∈ tokensFrom cs

/-- What was cut off once is cut off again, when nothing follows. -/
theorem Cut.first_again (c : Char) (cs : List Char) :
    ∃ tail, (Cut.first c cs).lexeme = c :: tail ∧
      Cut.first c tail = ⟨(Cut.first c cs).kind, (Cut.first c cs).lexeme, []⟩ := by
  have hform := Cut.form_first c cs
  have hrun : ∀ (kind : List Char → Kind) {p : Char → Bool},
      Cut.run kind p c (cs.takeWhile p) =
        ⟨kind (c :: cs.takeWhile p), c :: cs.takeWhile p, []⟩ := by
    intro kind p
    have hall : ∀ x ∈ cs.takeWhile p, p x = true :=
      fun x hx => List.all_eq_true.mp List.all_takeWhile x hx
    have hstop : ∀ x ∈ ([] : List Char).head?, p x = false := nofun
    have happend := Cut.run_append c kind hall hstop
    rwa [List.append_nil] at happend
  generalize Cut.first c cs = cut at hform ⊢
  cases hform with
  | doubled hkind => exact ⟨['='], rfl, (Cut.Form.doubled hkind).eq_first⟩
  | symbol hkind => exact ⟨[], rfl, (Cut.Form.symbol hkind fun _ => by simp).eq_first⟩
  | number hdigit => exact ⟨_, rfl, (Cut.Form.number hdigit).eq_first.trans (hrun _)⟩
  | word hword => exact ⟨_, rfl, (Cut.Form.word hword).eq_first.trans (hrun _)⟩
  | illegal hnone hdigit hword =>
    exact ⟨[], rfl, (Cut.Form.illegal hnone hdigit hword).eq_first⟩

theorem Token.scanned_first {c : Char} (hc : isBlank c = false) (cs : List Char) :
    (Cut.first c cs).token.Scanned :=
  ⟨c :: cs, by rw [tokensFrom_cons hc]; exact List.mem_cons_self⟩

/-- There is a token of every kind, apart from the end token. -/
theorem exists_scanned {k : Kind} (hk : k ≠ .eof) : ∃ t : Token, t.Scanned ∧ t.kind = k := by
  cases hs : k.spelling? with
  | some s =>
    refine ⟨⟨k, s⟩, ⟨s.toList ++ [], ?_⟩, rfl⟩
    rw [tokensFrom_spelled hs breaks_nil]
    exact List.mem_cons_self
  | none =>
    cases k with
    | eof => exact absurd rfl hk
    | illegal => exact ⟨_, Token.scanned_first (c := '@') rfl [], by decide⟩
    | ident => exact ⟨_, Token.scanned_first (c := 'x') rfl [], by decide⟩
    | int => exact ⟨_, Token.scanned_first (c := '0') rfl [], by decide⟩
    | _ => cases hs

/-- A token of some text is the only one of its own text. -/
theorem Token.Scanned.tokensFrom_text {t : Token} (ht : t.Scanned) :
    tokensFrom t.text.toList = [t] := by
  obtain ⟨cs, ht⟩ := ht
  induction hn : cs.length using Nat.strongRecOn generalizing cs with
  | ind n ih =>
    cases cs with
    | nil =>
      rw [tokensFrom_nil] at ht
      cases ht
    | cons c cs =>
      rw [List.length_cons] at hn
      by_cases hc : isBlank c = true
      · rw [tokensFrom_blank hc] at ht
        exact ih cs.length (by omega) cs ht rfl
      · have hblank : isBlank c = false := by simpa using hc
        rw [tokensFrom_cons hblank] at ht
        rcases List.mem_cons.mp ht with rfl | ht
        · obtain ⟨tail, hlexeme, hagain⟩ := Cut.first_again c cs
          have htext : (Cut.first c cs).token.text.toList = c :: tail := by
            rw [Cut.token, String.toList_ofList, hlexeme]
          rw [htext, tokensFrom_cons hblank, hagain, tokensFrom_nil]
          rfl
        · have hless := Cut.length_rest_first c cs
          exact ih _ (by omega) (Cut.first c cs).rest ht rfl

/-! ### Blanks between tokens -/

/-- Nothing but blanks. -/
def Blank (cs : List Char) : Prop := ∀ c ∈ cs, isBlank c = true

instance (cs : List Char) : Decidable (Blank cs) :=
  decidable_of_iff (cs.all isBlank = true) List.all_eq_true

theorem Blank.tokensFrom_append {cs : List Char} (h : Blank cs) (rest : List Char) :
    tokensFrom (cs ++ rest) = tokensFrom rest := by
  induction cs with
  | nil => rfl
  | cons c cs ih =>
    obtain ⟨hc, hcs⟩ := List.forall_mem_cons.mp h
    rw [List.cons_append, tokensFrom_blank hc, ih hcs]

theorem Blank.tokensFrom {cs : List Char} (h : Blank cs) : tokensFrom cs = [] := by
  have hnil := h.tokensFrom_append []
  rwa [List.append_nil, tokensFrom_nil] at hnil

theorem Blank.breaks {cs : List Char} (h : Blank cs) (rest : List Char)
    (hne : cs = [] → rest = []) : Breaks (cs ++ rest) := by
  cases cs with
  | nil =>
    rw [hne rfl]
    exact breaks_nil
  | cons c cs => exact breaks_blank (h c List.mem_cons_self) (cs ++ rest)

/-- The texts of tokens one behind the other, each with what is put behind it. -/
def spaced (pieces : List (Token × List Char)) : List Char :=
  pieces.flatMap fun piece => piece.1.text.toList ++ piece.2

/-- Tokens are read again from their texts if blanks stand between any two. -/
theorem tokensFrom_spaced {pieces : List (Token × List Char)}
    (hscanned : ∀ piece ∈ pieces, piece.1.Scanned) (hblank : ∀ piece ∈ pieces, Blank piece.2)
    (hbetween : ∀ piece ∈ pieces.dropLast, piece.2 ≠ []) :
    tokensFrom (spaced pieces) = pieces.map (·.1) := by
  induction pieces with
  | nil => exact tokensFrom_nil
  | cons piece pieces ih =>
    obtain ⟨ht, hscanned⟩ := List.forall_mem_cons.mp hscanned
    obtain ⟨hgap, hblank⟩ := List.forall_mem_cons.mp hblank
    have hlast : piece.2 = [] → pieces = [] := by
      intro hnone
      cases pieces with
      | nil => rfl
      | cons => exact absurd hnone (hbetween piece List.mem_cons_self)
    have hrest : ∀ piece ∈ pieces.dropLast, piece.2 ≠ [] := by
      cases pieces with
      | nil => nofun
      | cons => exact (List.forall_mem_cons.mp hbetween).2
    have hbreaks : Breaks (piece.2 ++ spaced pieces) :=
      hgap.breaks _ fun hnone => by rw [hlast hnone]; rfl
    calc tokensFrom (spaced (piece :: pieces))
        = tokensFrom (piece.1.text.toList ++ (piece.2 ++ spaced pieces)) := by
          rw [spaced, List.flatMap_cons, List.append_assoc]
          rfl
      _ = piece.1 :: tokensFrom (spaced pieces) := by
          rw [tokensFrom_append _ hbreaks, ht.tokensFrom_text, hgap.tokensFrom_append]
          rfl
      _ = (piece :: pieces).map (·.1) := by
          rw [ih hscanned hblank hrest, List.map_cons]

/-- Any sequence of tokens is that of a text. -/
theorem exists_text {u : List Token} (hu : ∀ t ∈ u, t.Scanned) :
    ∃ text : String, tokensFrom text.toList = u := by
  let pieces : List (Token × List Char) := u.map fun t => (t, [' '])
  have hgap : ∀ piece ∈ pieces, piece.1.Scanned ∧ piece.2 = [' '] := by
    intro piece hpiece
    obtain ⟨t, ht, rfl⟩ := List.mem_map.mp hpiece
    exact ⟨hu t ht, rfl⟩
  have htokens : pieces.map (·.1) = u := by
    simp only [pieces, List.map_map, Function.comp_def, List.map_id']
  refine ⟨String.ofList (spaced pieces), ?_⟩
  rw [String.toList_ofList, ← htokens]
  refine tokensFrom_spaced (fun piece hpiece => (hgap piece hpiece).1) ?_ ?_
  · intro piece hpiece
    rw [(hgap piece hpiece).2]
    decide
  · intro piece hpiece
    rw [(hgap piece (List.dropLast_subset _ hpiece)).2]
    exact List.cons_ne_nil _ _

/-! ### Semicolons between texts -/

/-- A text that starts with a semicolon breaks tokens. -/
theorem breaks_semicolon (rest : List Char) : Breaks (';' :: rest) :=
  breaks_cons.mpr (by decide)

theorem tokensFrom_semicolon (cs rest : List Char) :
    tokensFrom (cs ++ ';' :: rest) = tokensFrom cs ++ ⟨.semicolon, ";"⟩ :: tokensFrom rest := by
  have hsemicolon : tokensFrom (';' :: rest) = ⟨.semicolon, ";"⟩ :: tokensFrom rest :=
    tokensFrom_symbol rfl fun h => absurd h (by decide)
  rw [tokensFrom_append cs (breaks_semicolon rest), hsemicolon]

/-! ### The end token -/

/-- Where the text of a cursor ends. -/
def Cursor.finish (c : Cursor) : Nat := c.offset + c.rest.length

theorem Cursor.finish_skipBlanks (c : Cursor) : c.skipBlanks.finish = c.finish := by
  have hparts : c.rest.takeWhile isBlank ++ c.rest.dropWhile isBlank = c.rest :=
    List.takeWhile_append_dropWhile
  have hlength := congrArg List.length hparts
  rw [List.length_append] at hlength
  simp only [Cursor.finish, Cursor.skipBlanks]
  omega

theorem Cursor.finish_next? {c c' : Cursor} {t : Placed} (h : c.next? = some (t, c')) :
    c'.finish = c.finish := by
  rw [← Cursor.finish_skipBlanks c]
  obtain ⟨ch, cs, hrest, -, rfl⟩ := Cursor.next?_eq_some_iff.mp h
  have hcut := congrArg List.length (Cut.lexeme_append_rest_first ch cs)
  rw [List.length_append] at hcut
  simp only [Cursor.finish, hrest, ← hcut]
  omega

/-- The cursor at the end has passed all characters. -/
theorem Cursor.offset_collect (before : List Placed) (c : Cursor) :
    (c.collect before).2.offset = c.finish := by
  unfold Cursor.collect
  split
  · next h =>
    rw [← Cursor.finish_skipBlanks, Cursor.finish, Cursor.next?_eq_none_iff.mp h]
    rfl
  · next t c' h =>
    have hless := Cursor.length_rest_next? h
    rw [Cursor.offset_collect (t :: before) c', Cursor.finish_next? h]
termination_by c.rest.length

theorem tokenize_eq (text : String) : tokenize text = scan text ++ [⟨.eof, text.length⟩] := by
  have hend : ((Cursor.ofText text).collect []).2.offset = text.length := by
    rw [Cursor.offset_collect, Cursor.finish, Cursor.ofText, Nat.zero_add, String.length_toList]
  rw [tokenize, Cursor.drain, scan, ← hend]

end Treewalk
