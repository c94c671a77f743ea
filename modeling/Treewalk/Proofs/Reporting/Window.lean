/-
  Treewalk/Proofs/Reporting/Window.lean
  =====================================
  **A window shows the line of its offset, with the caret under the offset.**
  The line is cut in two at the offset.  Of both parts the window shows what
  lies next to the offset, as much as the context allows, so the caret stands
  behind the first part and the dots in front of it.
-/
import Treewalk.Text.Window

namespace Treewalk.Text

/-- The line of a text in which an offset lies.  A line feed belongs to no line; an offset at the
    end of a line still lies in it. -/
structure IsLine (text : List Char) (offset : Nat) (before line after : List Char) : Prop where
  parts : text = before ++ (line ++ after)
  unbroken : '\n' ∉ line
  starts : before = [] ∨ before.getLast? = some '\n'
  ends : after = [] ∨ after.head? = some '\n'
  holds : before.length ≤ offset ∧ offset ≤ before.length + line.length

/-- The first of the two lines shows a piece of the line in which the offset lies, with dots for
    what is left out on either side of it.  The caret in the second one stands where the offset
    is in this line: under the character at the offset, or behind the first line if the offset is
    at the end of the line of the text. -/
def PointsAt (text : List Char) (offset context : Nat) (first second : List Char) : Prop :=
  ∃ before line after skipped piece omitted column,
    IsLine text offset before line after ∧
    line = skipped ++ (piece ++ omitted) ∧ piece.length ≤ 2 * context ∧
    first = ellipsis (skipped ≠ []) ++ (piece ++ ellipsis (omitted ≠ [])) ∧
    second = List.replicate column ' ' ++ ['^'] ∧
    before.length + skipped.length + column = offset + (ellipsis (skipped ≠ [])).length ∧
    (offset < before.length + line.length →
      ∃ c, text[offset]? = some c ∧ first[column]? = some c) ∧
    (offset = before.length + line.length → column = first.length)

/-! ### Lines -/

/-- The line of an offset, cut in two there: `near` lies before the offset, and `far` behind. -/
structure CutLine (text : List Char) (offset : Nat) (before near far after : List Char) : Prop where
  isLine : IsLine text offset before (near ++ far) after
  place : before.length + near.length = offset
  lineStart_eq : lineStart text offset = before.length
  lineEnd_eq : lineEnd text offset = offset + far.length

theorem not_mem_takeWhile_newline (cs : List Char) : '\n' ∉ cs.takeWhile (· != '\n') := by
  intro hmem
  have hall := List.all_eq_true.mp (List.all_takeWhile (p := (· != '\n')) (l := cs)) _ hmem
  simp at hall

theorem dropWhile_newline (cs : List Char) :
    cs.dropWhile (· != '\n') = [] ∨ (cs.dropWhile (· != '\n')).head? = some '\n' := by
  have hstop := List.head?_dropWhile_not (· != '\n') cs
  cases hcs : cs.dropWhile (· != '\n') with
  | nil => exact .inl rfl
  | cons c rest =>
    rw [hcs] at hstop
    simpa using hstop

/-- Both parts of the line are what is met on the way from the offset to a line feed or to an end
    of the text. -/
theorem exists_cutLine {text : List Char} {offset : Nat} (h : offset ≤ text.length) :
    ∃ before near far after, CutLine text offset before near far after := by
  let head := (text.take offset).reverse
  let tail := text.drop offset
  let before := (head.dropWhile (· != '\n')).reverse
  let near := (head.takeWhile (· != '\n')).reverse
  let far := tail.takeWhile (· != '\n')
  let after := tail.dropWhile (· != '\n')
  have hhead : before ++ near = text.take offset := by
    simp only [before, near, ← List.reverse_append, List.takeWhile_append_dropWhile]
    exact List.reverse_reverse _
  have htail : far ++ after = tail := List.takeWhile_append_dropWhile
  have hplace : before.length + near.length = offset := by
    rw [← List.length_append, hhead, List.length_take, Nat.min_eq_left h]
  refine ⟨before, near, far, after, ⟨?_, ?_, ?_, dropWhile_newline tail, ?_⟩, hplace, ?_, ?_⟩
  · rw [List.append_assoc, htail, ← List.append_assoc, hhead, List.take_append_drop]
  · rw [List.mem_append, List.mem_reverse, not_or]
    exact ⟨not_mem_takeWhile_newline head, not_mem_takeWhile_newline tail⟩
  · rw [List.reverse_eq_nil_iff, List.getLast?_reverse]
    exact dropWhile_newline head
  · rw [List.length_append]
    omega
  · have hnear : lineStart text offset = (text.take offset).length - near.length := by
      rw [lineStart, place_of_le h, List.length_reverse]
    rw [hnear, List.length_take, Nat.min_eq_left h]
    omega
  · rw [lineEnd, place_of_le h]

/-! ### Windows -/

/-- Something is left out at an end of the line if it is longer than the context. -/
theorem left_out_iff (near far : List Char) (context : Nat) :
    (near.take (near.length - context) ≠ [] ↔ context < near.length) ∧
      (far.drop context ≠ [] ↔ context < far.length) := by
  rw [Ne, List.take_eq_nil_iff, Ne, List.drop_eq_nil_iff, ← List.length_eq_zero_iff]
  omega

variable {text before near far after : List Char} {offset : Nat}

namespace CutLine

variable (h : CutLine text offset before near far after)

include h

theorem length_text : text.length = offset + far.length + after.length := by
  have hparts := congrArg List.length h.isLine.parts
  simp only [List.length_append] at hparts
  have hplace := h.place
  omega

theorem drop_offset : text.drop offset = far ++ after := by
  rw [h.isLine.parts, ← h.place, List.append_assoc, ← List.append_assoc, ← List.length_append,
    List.drop_left]

theorem slice_eq {i j : Nat} (hi : i ≤ near.length) (hj : j ≤ far.length) :
    slice text (before.length + i : Nat) (offset + j : Nat) = near.drop i ++ far.take j := by
  have hlength := h.length_text
  have hplace := h.place
  have htext : text = (before ++ near) ++ (far ++ after) := by
    rw [h.isLine.parts]
    simp only [List.append_assoc]
  have hstop : offset + j = (before ++ near).length + j := by
    rw [List.length_append, hplace]
  rw [slice, place_of_le (by omega), place_of_le (by omega), hstop, htext,
    List.take_length_add_append, List.take_append_of_le_length hj, List.append_assoc,
    List.drop_length_add_append, List.drop_append_of_le_length hi]

/-- Around the offset, as much of the line is shown as the context allows. -/
theorem around (context : Nat) : Window.around text offset context =
    ⟨decide (context < near.length), near.drop (near.length - context) ++ far.take context,
      decide (context < far.length), (min near.length context : Nat)⟩ := by
  have hplace := h.place
  have hstart : max (before.length : Int) (offset - context : Int) =
      ((before.length + (near.length - context) : Nat) : Int) := by
    omega
  have hstop : min ((offset + far.length : Nat) : Int) (offset + context : Int) =
      ((offset + min context far.length : Nat) : Int) := by
    omega
  have hslice := h.slice_eq (Nat.sub_le near.length context) (Nat.min_le_right context far.length)
  rw [← List.take_eq_take_min] at hslice
  rw [Window.around, h.lineStart_eq, h.lineEnd_eq, hstart, hstop, hslice, Window.mk.injEq,
    decide_eq_decide, decide_eq_decide]
  refine ⟨?_, rfl, ?_, ?_⟩
  · omega
  · omega
  · omega

theorem line_around (context : Nat) : (Window.around text offset context).line =
    ellipsis (near.take (near.length - context) ≠ []) ++
      ((near.drop (near.length - context) ++ far.take context) ++
        ellipsis (far.drop context ≠ [])) := by
  obtain ⟨hskipped, homitted⟩ := left_out_iff near far context
  rw [h.around, Window.line, List.append_assoc, decide_eq_decide.mpr hskipped,
    decide_eq_decide.mpr homitted]

theorem caret_around (context : Nat) : (Window.around text offset context).caret =
    List.replicate ((ellipsis (near.take (near.length - context) ≠ [])).length +
      (near.drop (near.length - context)).length) ' ' ++ ['^'] := by
  have hcolumn : ∀ dots : List Char,
      (((min near.length context : Nat) : Int) + dots.length).toNat =
        dots.length + (near.drop (near.length - context)).length := by
    intro dots
    rw [List.length_drop]
    omega
  rw [h.around, Window.caret, decide_eq_decide.mpr (left_out_iff near far context).1]
  exact congrArg (fun n => List.replicate n ' ' ++ ['^']) (hcolumn _)

/-- With any context, the line at the offset is shown and pointed at. -/
theorem pointsAt {context : Nat} (hcontext : 1 ≤ context) : PointsAt text offset context
    (Window.around text offset context).line (Window.around text offset context).caret := by
  have hplace := h.place
  have hpiece : (near.drop (near.length - context) ++ far.take context).length ≤ 2 * context := by
    rw [List.length_append, List.length_drop, List.length_take]
    omega
  have hparts : near ++ far = near.take (near.length - context) ++
      ((near.drop (near.length - context) ++ far.take context) ++ far.drop context) := by
    rw [List.append_assoc, List.take_append_drop, ← List.append_assoc, List.take_append_drop]
  refine ⟨before, near ++ far, after, _, _, _, _, h.isLine, hparts, hpiece,
    h.line_around context, h.caret_around context, ?_, ?_, ?_⟩
  · rw [List.length_take, List.length_drop]
    omega
  · intro hbefore
    rw [List.length_append] at hbefore
    cases far with
    | nil =>
      rw [List.length_nil] at hbefore
      omega
    | cons c rest =>
      refine ⟨c, ?_, ?_⟩
      · rw [← List.head?_drop, h.drop_offset]
        rfl
      · obtain ⟨k, rfl⟩ := Nat.exists_eq_add_of_le' hcontext
        rw [h.line_around, List.take_succ_cons, List.append_assoc, ← List.append_assoc,
          ← List.length_append, List.cons_append, List.getElem?_append_right (Nat.le_refl _),
          Nat.sub_self]
        rfl
  · intro hend
    rw [List.length_append] at hend
    obtain rfl : far = [] := List.eq_nil_of_length_eq_zero (by omega)
    rw [h.line_around, List.drop_nil, List.take_nil, List.append_nil, List.length_append,
      List.length_append]
    rfl

end CutLine

theorem newline_not_mem_ellipsis (cut : Bool) : '\n' ∉ ellipsis cut := by
  cases cut <;> decide

theorem PointsAt.newline_not_mem {context : Nat} {first second : List Char}
    (h : PointsAt text offset context first second) : '\n' ∉ first ∧ '\n' ∉ second := by
  obtain ⟨before, line, after, skipped, piece, omitted, column, hline, rfl, -, rfl, rfl, -⟩ := h
  have hpiece := hline.unbroken
  simp only [List.mem_append, not_or] at hpiece ⊢
  refine ⟨⟨newline_not_mem_ellipsis _, hpiece.2.1, newline_not_mem_ellipsis _⟩, ?_, by decide⟩
  simp [List.mem_replicate]

/-- The two lines are a window of the text. -/
theorem splitOn_pointAt (text : String) {offset context : Nat} (hoffset : offset ≤ text.length)
    (hcontext : 1 ≤ context) :
    ∃ first second, (pointAt text offset context).toList.splitOn '\n' = [first, second] ∧
      PointsAt text.toList offset context first second := by
  rw [← String.length_toList] at hoffset
  obtain ⟨before, near, far, after, h⟩ := exists_cutLine hoffset
  have hpoints := h.pointsAt hcontext
  obtain ⟨hfirst, hsecond⟩ := hpoints.newline_not_mem
  refine ⟨_, _, ?_, hpoints⟩
  rw [pointAt, String.toList_ofList, List.splitOn_append_cons_self_of_not_mem hfirst,
    List.splitOn_eq_singleton hsecond]

end Treewalk.Text
