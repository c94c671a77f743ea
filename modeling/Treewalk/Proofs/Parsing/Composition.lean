/-
  Treewalk/Proofs/Parsing/Composition.lean
  ========================================
  **Parsing goes on behind a semicolon as at the start of a text.**  What stands
  behind a program and a semicolon comes to what it comes to by itself: to its
  statements, or to its error, which has moved with the text.
-/
import Treewalk.Proofs.Parsing.Joining
import Treewalk.Proofs.Parsing.Locality
import Treewalk.Proofs.Scanning.Places

namespace Treewalk

theorem tokensFrom_join (text rest : String) :
    tokensFrom (text ++ ";" ++ rest).toList =
      tokensFrom text.toList ++ ⟨.semicolon, ";"⟩ :: tokensFrom rest.toList := by
  rw [String.toList_append, String.toList_append, List.append_assoc]
  exact tokensFrom_semicolon text.toList rest.toList

/-- A failure leaves tokens of the text unread, if any. -/
theorem length_unread_le {limit : Nat} {text : String} {f : Failure}
    (h : Parser.program limit (tokensFrom text.toList) = .error f) :
    f.unread.length ≤ (scan text).length := by
  obtain ⟨b, hu, -⟩ := Parser.local_program limit _ (.error f.error) f.unread h
  rw [length_scan, hu, List.length_append]
  exact Nat.le_add_left _ _

/-- Behind a semicolon, the last tokens start so many characters later as there are in front of
    them. -/
theorem startOfLast_semicolon (text rest : String) {count : Nat}
    (hcount : count ≤ (scan rest).length) :
    startOfLast (text ++ ";" ++ rest) (scan (text ++ ";" ++ rest)) count =
      text.length + 1 + startOfLast rest (scan rest) count := by
  let moved := (scan rest).map (Placed.shift (text.length + 1))
  have hmoved : moved.length = (scan rest).length := List.length_map _
  have hdrop : (scan (text ++ ";" ++ rest)).drop
        ((scan (text ++ ";" ++ rest)).length - count) =
      ((scan rest).drop ((scan rest).length - count)).map (Placed.shift (text.length + 1)) := by
    have hscan : scan (text ++ ";" ++ rest) =
        (scan text ++ [⟨⟨.semicolon, ";"⟩, text.length⟩]) ++ moved := by
      rw [scan_semicolon, List.append_assoc]
      rfl
    rw [hscan, List.length_append, hmoved, Nat.add_sub_assoc hcount, List.drop_append,
      List.drop_eq_nil_of_le (Nat.le_add_right _ _), Nat.add_sub_cancel_left, List.nil_append,
      List.map_drop]
  rw [startOfLast, startOfLast, hdrop]
  cases (scan rest).drop ((scan rest).length - count) with
  | nil =>
    show (text ++ ";" ++ rest).length = text.length + 1 + rest.length
    rw [String.length_append, String.length_append]
    rfl
  | cons t ts => rfl

/-- **Parsing is compositional.**  If a text is a program, then any text behind it and a semicolon
    is parsed as it is by itself.  If it is a program, too, the whole has the statements of both;
    and if it is refused, the whole is refused for the same reason, at the same place of it. -/
theorem parseWithin_composed {limit : Nat} {text : String} {p : Program}
    (h : parseWithin limit text = .ok p) (rest : String) :
    (∀ q, parseWithin limit rest = .ok q →
      parseWithin limit (text ++ ";" ++ rest) = .ok (p ++ q)) ∧
    ∀ e, parseWithin limit rest = .error e →
      parseWithin limit (text ++ ";" ++ rest) =
        .error ⟨e.error, text ++ ";" ++ rest, text.length + 1 + e.offset⟩ := by
  refine ⟨fun q hrest => parseWithin_semicolon h hrest, fun e hrest => ?_⟩
  obtain ⟨r, hread⟩ := parseWithin_ok.mp h
  obtain ⟨rfl, -⟩ := Parser.program_sound (readable_tokensFrom text) hread
  obtain ⟨f, hfail, rfl⟩ := parseWithin_error.mp hrest
  refine parseWithin_error.mpr ⟨f, ?_, ?_⟩
  · rw [tokensFrom_join, Parser.program_semicolon rfl hread, Parser.map_apply, hfail]
  · have hoffset := startOfLast_semicolon text rest (length_unread_le hfail)
    exact congrArg (ParseError.mk f.error _) hoffset.symm

/-- What is missing at the end of the second text is missed at the end of the whole. -/
theorem parseWithin_composed_open :
    parseWithin 2 "1" = .ok [.expr (.int 1)] ∧
      parseWithin 2 "(" = .error ⟨.noOperand .eof, "(", 1⟩ ∧
      parseWithin 2 "1;(" = .error ⟨.noOperand .eof, "1;(", 3⟩ := by
  have hone : parseWithin 2 "1" = .ok [.expr (.int 1)] := by decide +kernel
  have hopen : parseWithin 2 "(" = .error ⟨.noOperand .eof, "(", 1⟩ := by decide +kernel
  exact ⟨hone, hopen, (parseWithin_composed hone "(").2 _ hopen⟩

end Treewalk
