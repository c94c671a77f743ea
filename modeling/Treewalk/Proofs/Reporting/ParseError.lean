/-
  Treewalk/Proofs/Reporting/ParseError.lean
  =========================================
  **The report of a parse error has three lines**: what is wrong, the line of
  the text where it is, and a caret under the token that is refused.  Nothing
  in a message can break its line, because a numeral that it shows is quoted.
-/
import Mathlib.Control.Monad.Basic
import Mathlib.Tactic.SplitIfs
import Treewalk.Proofs.Parsing.Blame
import Treewalk.Proofs.Parsing.FirstError
import Treewalk.Proofs.Reporting.Window
import Treewalk.Proofs.Scanning.Split

namespace Treewalk

open Text

/-! ### Messages on one line -/

theorem Text.newline_not_mem_toDigits (n : Nat) : '\n' ∉ Nat.toDigits 16 n := by
  have hdigit : ∀ d < 16, '\n' ∉ [Nat.digitChar d] := by decide
  induction n using Nat.strongRecOn with
  | ind n ih =>
    rw [Nat.toDigits_eq_if (by decide)]
    split
    · next hless => exact hdigit n hless
    · rw [List.mem_append, not_or]
      exact ⟨ih (n / 16) (by omega), hdigit _ (Nat.mod_lt n (by decide))⟩

theorem Text.newline_not_mem_hexEscape (n : Nat) : '\n' ∉ hexEscape n := by
  have hhex : ∀ width, '\n' ∉ hex width n := by
    intro width
    rw [hex, List.mem_append, not_or]
    exact ⟨by simp [List.mem_replicate], newline_not_mem_toDigits n⟩
  unfold hexEscape
  split_ifs <;> exact List.not_mem_cons_of_ne_of_not_mem (by decide) (hhex _)

theorem Text.newline_not_mem_quotedChar {quote : Char} (hquote : quote ≠ '\n') (c : Char) :
    '\n' ∉ quotedChar quote c := by
  unfold quotedChar
  split_ifs with hescaped htab hnewline hreturn hprintable
  · have hc : c ≠ '\n' := by
      rintro rfl
      simp [hquote.symm, backslash] at hescaped
    exact List.not_mem_cons_of_ne_of_not_mem (by decide) (by simpa using hc.symm)
  · decide
  · decide
  · decide
  · simpa using Ne.symm hnewline
  · exact List.not_mem_cons_of_ne_of_not_mem (by decide) (newline_not_mem_hexEscape _)

/-- Quoted text stands on one line. -/
theorem Text.newline_not_mem_quoted (text : String) : '\n' ∉ (quoted text).toList := by
  have hquote : surroundingQuote text.toList ≠ '\n' := by
    unfold surroundingQuote
    split <;> decide
  rw [quoted, String.toList_ofList, List.cons_append, List.mem_cons, List.mem_append,
    List.mem_flatMap, List.mem_singleton]
  rintro (hsame | ⟨c, -, hc⟩ | hsame)
  · exact hquote hsame.symm
  · exact newline_not_mem_quotedChar hquote c hc
  · exact hquote hsame.symm

theorem Kind.newline_not_mem_name (k : Kind) : '\n' ∉ k.name.toList := by
  cases k <;> decide

theorem Text.newline_not_mem_append {a b : String} (ha : '\n' ∉ a.toList) (hb : '\n' ∉ b.toList) :
    '\n' ∉ (a ++ b).toList := by
  rw [String.toList_append, List.mem_append, not_or]
  exact ⟨ha, hb⟩

theorem Text.toList_append_newline (a b : String) :
    (a ++ "\n" ++ b).toList = a.toList ++ '\n' :: b.toList := by
  rw [String.toList_append, String.toList_append, List.append_assoc]
  rfl

theorem SyntaxError.newline_not_mem_message (error : SyntaxError) :
    '\n' ∉ error.message.toList := by
  cases error with
  | noOperand found =>
    exact newline_not_mem_append
      (newline_not_mem_append (by decide) found.newline_not_mem_name) (by decide)
  | unexpected wanted found =>
    have hwanted : '\n' ∉ ("expected next token to be " ++ wanted.name ++ ", got ").toList :=
      newline_not_mem_append
        (newline_not_mem_append (by decide) wanted.newline_not_mem_name) (by decide)
    exact newline_not_mem_append
      (newline_not_mem_append hwanted found.newline_not_mem_name) (by decide)
  | tooLarge numeral =>
    exact newline_not_mem_append
      (newline_not_mem_append (by decide) (newline_not_mem_quoted numeral)) (by decide)
  | tooDeep => decide

/-! ### Places of tokens -/

/-- Where a token starts, the text has its first character, and this is not blank. -/
theorem exists_front {text : String} {t : Placed} (ht : t ∈ scan text) :
    ∃ c, text.toList[t.start]? = some c ∧ t.token.text.toList.head? = some c ∧
      isBlank c = false := by
  obtain ⟨-, hpiece⟩ := (isSplit_iff_scan.mpr rfl).pieces t ht
  obtain ⟨c, tail, hdrop, hc, -⟩ := hpiece.front
  obtain ⟨d, rest, htext⟩ := List.exists_cons_of_ne_nil hpiece.nonempty
  have hstart := hpiece.drop_start
  rw [hdrop, htext, List.cons_append] at hstart
  obtain ⟨rfl, -⟩ := List.cons.inj hstart
  exact ⟨c, getElem?_of_drop hdrop, by rw [htext]; rfl, hc⟩

/-- A token is one of the scan, or the end token, which is the only one of its kind. -/
theorem mem_tokenize {text : String} {t : Placed} (ht : t ∈ tokenize text) :
    t ∈ scan text ∧ t.token.kind ≠ .eof ∨ t = ⟨.eof, text.length⟩ := by
  rw [tokenize_eq] at ht
  rcases List.mem_append.mp ht with hscan | hend
  · refine .inl ⟨hscan, (readable_tokensFrom text t.token ?_).ne_eof⟩
    rw [← map_token_scan]
    exact List.mem_map_of_mem hscan
  · exact .inr (List.mem_singleton.mp hend)

theorem start_le_length {text : String} {t : Placed} (ht : t ∈ tokenize text) :
    t.start ≤ text.length := by
  rcases mem_tokenize ht with ⟨hscan, -⟩ | rfl
  · obtain ⟨c, hc, -⟩ := exists_front hscan
    obtain ⟨hless, -⟩ := List.getElem?_eq_some_iff.mp hc
    rw [← String.length_toList]
    exact Nat.le_of_lt hless
  · exact Nat.le_refl _

theorem token_at {text : String} {b r : List Token} {t : Placed}
    (h : tokensFrom text.toList = b ++ r) (ht : (tokenize text)[b.length]? = some t) :
    t.token = r.headD .eof := by
  have hmap := congrArg (·[b.length]?) (map_token_tokenize text)
  simp only [List.getElem?_map, ht, h, List.append_assoc, Option.map_some] at hmap
  rw [List.getElem?_append_right (Nat.le_refl _), Nat.sub_self] at hmap
  cases r <;> exact Option.some.inj hmap

/-- The text is refused at one of its tokens, for what the error says of this token. -/
theorem exists_refused {limit : Nat} {text : String} {e : ParseError}
    (h : parseWithin limit text = .error e) :
    e.text = text ∧ ∃ t ∈ tokenize text, e.offset = t.start ∧ e.error.Blames t.token := by
  obtain ⟨⟨error, r⟩, hread, rfl⟩ := parseWithin_error.mp h
  obtain ⟨b, hu, -⟩ := Parser.local_program limit _ (.error error) r hread
  obtain ⟨t, ht, hoffset⟩ := exists_offset hu
  refine ⟨rfl, t, List.mem_of_getElem? ht, hoffset, ?_⟩
  rw [token_at hu ht]
  exact Parser.blaming_program limit _ _ hread

/-! ### Carets under tokens -/

/-- The caret stands under the first character of the token, and behind the line shown if the
    token is the end token. -/
def CaretUnder (t : Placed) (first second : List Char) : Prop :=
  ∃ column, second = List.replicate column ' ' ++ ['^'] ∧
    (t.token.kind ≠ .eof → ∃ c, t.token.text.toList.head? = some c ∧ first[column]? = some c) ∧
    (t.token.kind = .eof → column = first.length)

theorem Text.IsLine.getElem?_end {text before line after : List Char} {offset : Nat}
    (h : IsLine text offset before line after) (hend : offset = before.length + line.length) :
    text[offset]? = after.head? := by
  rw [h.parts, ← List.append_assoc, hend, ← List.length_append,
    List.getElem?_append_right (Nat.le_refl _), Nat.sub_self, List.head?_eq_getElem?]

/-- What points at the start of a token has its caret there: a token starts before the end of its
    line, because what ends a line is blank. -/
theorem caretUnder_of_pointsAt {text : String} {t : Placed} {context : Nat}
    {first second : List Char} (ht : t ∈ tokenize text)
    (h : PointsAt text.toList t.start context first second) : CaretUnder t first second := by
  obtain ⟨before, line, after, skipped, piece, omitted, column, hline, -, -, -, hsecond, -,
    hbefore, hend⟩ := h
  refine ⟨column, hsecond, fun hkind => ?_, fun hkind => hend ?_⟩
  · obtain ⟨hscan, -⟩ | rfl := mem_tokenize ht
    · obtain ⟨c, hc, hhead, hblank⟩ := exists_front hscan
      have hless : t.start < before.length + line.length := by
        refine Nat.lt_of_le_of_ne hline.holds.2 fun hlast => ?_
        rw [hline.getElem?_end hlast] at hc
        rcases hline.ends with rfl | hnewline
        · cases hc
        · rw [hnewline] at hc
          cases hc
          cases hblank
      obtain ⟨d, hd, hcolumn⟩ := hbefore hless
      rw [hc] at hd
      cases hd
      exact ⟨c, hhead, hcolumn⟩
    · exact absurd rfl hkind
  · obtain ⟨-, hother⟩ | rfl := mem_tokenize ht
    · exact absurd hkind hother
    · have hlength := congrArg List.length hline.parts
      simp only [List.length_append, String.length_toList] at hlength
      have hholds : text.length ≤ before.length + line.length := hline.holds.2
      show text.length = _
      omega

/-! ### Reports -/

theorem splitOn_report {limit : Nat} {text : String} {e : ParseError}
    (h : parseWithin limit text = .error e) :
    ∃ first second, e.report.toList.splitOn '\n' =
        [("[Parser error] " ++ e.error.message).toList, first, second] ∧
      PointsAt text.toList e.offset 10 first second ∧
      ∃ t ∈ tokenize text, e.offset = t.start ∧ e.error.Blames t.token ∧
        CaretUnder t first second := by
  obtain ⟨rfl, t, ht, hoffset, hblames⟩ := exists_refused h
  have hinside : e.offset ≤ e.text.length := hoffset ▸ start_le_length ht
  obtain ⟨first, second, hlines, hpoints⟩ :=
    splitOn_pointAt e.text hinside (show 1 ≤ 10 by decide)
  refine ⟨first, second, ?_, hpoints, t, ht, hoffset, hblames,
    caretUnder_of_pointsAt ht (hoffset ▸ hpoints)⟩
  have hheading := newline_not_mem_append (a := "[Parser error] ") (by decide)
    e.error.newline_not_mem_message
  have hreport : e.report.toList = ("[Parser error] " ++ e.error.message).toList ++
      '\n' :: (pointAt e.text e.offset (10 : Nat)).toList := toList_append_newline _ _
  rw [hreport, List.splitOn_append_cons_self_of_not_mem hheading, hlines]

/-- **Errors are pointed at.**

    Two lines point at any place of a text, its end included, with any context.  The first one is
    a piece of the line with the place in it, with dots where characters of the line are left
    out.  The caret in the second one stands under the character at the place, or behind the
    first line if the place is at the end of the line.

    The report of a text that is refused has three lines, its message and two that point at the
    start of the offending token, of which the message is true.  The caret stands under the first
    character of this token, or behind what is shown if it is the end token. -/
theorem errors_pointed_at :
    (∀ (text : String) (offset context : Nat), offset ≤ text.length → 1 ≤ context →
      ∃ first second, (pointAt text offset context).toList.splitOn '\n' = [first, second] ∧
        PointsAt text.toList offset context first second) ∧
    ∀ (limit : Nat) (text : String) (e : ParseError), parseWithin limit text = .error e →
      ∃ first second, e.report.toList.splitOn '\n' =
          [("[Parser error] " ++ e.error.message).toList, first, second] ∧
        PointsAt text.toList e.offset 10 first second ∧
        ∃ t ∈ tokenize text, e.offset = t.start ∧ e.error.Blames t.token ∧
          CaretUnder t first second :=
  ⟨fun text _ _ => splitOn_pointAt text, fun _ _ _ => splitOn_report⟩

/-- Of a line that is too long, what is near the numeral is shown. -/
theorem errors_pointed_at_cut :
    (∃ first second, (pointAt "ab\ncd" 3 1).toList.splitOn '\n' = [first, second] ∧
      PointsAt "ab\ncd".toList 3 1 first second) ∧
    ∃ e, parseWithin 1 "let abcdefghijkl 5" = .error e ∧ e.offset = 17 ∧
      PointsAt "let abcdefghijkl 5".toList 17 10 "...defghijkl 5".toList "             ^".toList ∧
      ∃ t ∈ tokenize "let abcdefghijkl 5", 17 = t.start ∧ t.token.kind = .int ∧
        CaretUnder t "...defghijkl 5".toList "             ^".toList := by
  refine ⟨errors_pointed_at.1 "ab\ncd" 3 1 (by decide) (by decide), ?_⟩
  let e : ParseError := ⟨.unexpected .assign .int, "let abcdefghijkl 5", 17⟩
  have hparse : parseWithin 1 "let abcdefghijkl 5" = .error e := by decide +kernel
  have hlines : e.report.toList.splitOn '\n' =
      [("[Parser error] " ++ e.error.message).toList, "...defghijkl 5".toList,
        "             ^".toList] := by decide +kernel
  obtain ⟨first, second, hreport, hpoints, hcaret⟩ := errors_pointed_at.2 1 _ e hparse
  rw [hlines] at hreport
  obtain ⟨rfl, rfl⟩ : "...defghijkl 5".toList = first ∧ "             ^".toList = second := by
    injection hreport with _ hrest
    injection hrest with hfirst hrest
    injection hrest with hsecond
    exact ⟨hfirst, hsecond⟩
  exact ⟨e, hparse, rfl, hpoints, hcaret⟩

end Treewalk
