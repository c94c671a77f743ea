/-
  Treewalk/Proofs/Evaluation/Messages.lean
  ========================================
  **What the text of an error tells**: that a number does not fit is said of
  this number and for this cause only.

  The texts of any two causes differ in front of what they embed, and the text
  of a number is that of no other.
-/
import Treewalk.Interpreter

namespace Treewalk

/-! ### Numbers as texts -/

theorem toString_nat_inj {n k : Nat} (h : toString n = toString k) : n = k := by
  have hdigits (n : Nat) : (toString n).toList = Nat.toDigits 10 n := Nat.toList_repr
  have h := congrArg String.toList h
  rw [hdigits, hdigits] at h
  rw [← @Nat.ofDigitChars_ten_toDigits n, ← @Nat.ofDigitChars_ten_toDigits k, h]

/-- No natural number is written with a sign. -/
theorem toString_nat_ne (n k : Nat) : toString n ≠ "-" ++ toString k := by
  intro h
  have hminus : '-' ∈ Nat.toDigits 10 n := by
    rw [← Nat.toList_repr]
    show '-' ∈ (toString n).toList
    simp [h]
  have hdigit : ('-').isDigit = true :=
    Nat.isDigit_of_mem_toDigits (by omega) (by omega) hminus
  exact absurd hdigit (by decide)

theorem toString_int_inj {v w : Int} (h : toString v = toString w) : v = w := by
  cases v with
  | ofNat n =>
    cases w with
    | ofNat k => exact congrArg Int.ofNat (toString_nat_inj h)
    | negSucc k => exact absurd h (toString_nat_ne n (k + 1))
  | negSucc n =>
    cases w with
    | ofNat k => exact absurd h.symm (toString_nat_ne k (n + 1))
    | negSucc k =>
      have hsucc : toString (n + 1) = toString (k + 1) := (String.append_right_inj "-").mp h
      exact congrArg Int.negSucc (Nat.succ.inj (toString_nat_inj hsucc))

/-! ### Texts of errors -/

theorem zip_eq_of_append_eq {α : Type} :
    ∀ {xs ys us vs : List α}, xs ++ us = ys ++ vs → ∀ p ∈ xs.zip ys, p.1 = p.2
  | [], _, _, _, _ => nofun
  | _ :: _, [], _, _, _ => nofun
  | _ :: _, _ :: _, _, _, h => by
    obtain ⟨hhead, htail⟩ := List.cons.inj h
    exact List.forall_mem_cons.mpr ⟨hhead, zip_eq_of_append_eq htail⟩

/-- Texts that differ in front are different, whatever follows. -/
theorem append_ne_append {front front' : String}
    (h : ∃ p ∈ front.toList.zip front'.toList, p.1 ≠ p.2) (rest rest' : String) :
    front ++ rest ≠ front' ++ rest' := by
  intro heq
  obtain ⟨p, hp, hne⟩ := h
  have hlists := congrArg String.toList heq
  rw [String.toList_append, String.toList_append] at hlists
  exact hne (zip_eq_of_append_eq hlists p hp)

theorem overflow_of_report {e : Error} {v : Int}
    (h : e.report = "integer overflow: " ++ toString v ++ " does not fit in 64 bits") :
    e = .fault (.overflow v) := by
  unfold Error.report ParseError.report Fault.message at h
  cases e with
  | parse e =>
    simp only [String.append_assoc] at h
    exact absurd h (append_ne_append (by decide +kernel) _ _)
  | fault f =>
    cases f with
    | overflow w =>
      have hvalue := (String.append_right_inj _).mp ((String.append_left_inj _).mp h)
      rw [toString_int_inj hvalue]
    | nestedTooDeep =>
      have hfront := @append_ne_append "stack overflow: " "integer overflow: " (by decide +kernel)
        "expression is nested too deeply"
      rw [String.append_assoc] at h
      exact absurd h (hfront _)
    | _ =>
      simp only [String.append_assoc] at h
      exact absurd h (append_ne_append (by decide +kernel) _ _)

end Treewalk
