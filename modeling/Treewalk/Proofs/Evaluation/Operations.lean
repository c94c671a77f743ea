/-
  Treewalk/Proofs/Evaluation/Operations.lean
  ==========================================
  **What operations come to**: truth values and numbers in range, or one of a
  few faults, which name the operands or a result that is out of range.

  A result that is out of range is never far out: of two numbers in range, the
  product of the least with itself has the greatest size.
-/
import Mathlib.Algebra.Group.Nat.Defs
import Treewalk.Value.Operation

namespace Treewalk

/-! ### Results -/

/-- The value is a truth value, or a number in range. -/
def Value.Computed : Value → Prop
  | int x => Number.InRange x
  | bool _ => True
  | _ => False

section Results

variable {op : String} {a b v : Value}

theorem computed_checked {x : Int} (h : checked x = .ok v) : v.Computed := by
  unfold checked at h
  split at h <;> cases h
  assumption

theorem computed_unary (h : a.unary op = .ok v) : v.Computed := by
  unfold Value.unary at h
  split at h
  · cases htruth : a.truth with
    | error f =>
      rw [htruth] at h
      cases h
    | ok b =>
      rw [htruth] at h
      cases h
      trivial
  · split at h
    · exact computed_checked h
    · cases h
  · cases h

theorem computed_binaryInt {x y : Int} (h : Value.binaryInt op x y = .ok v) : v.Computed := by
  unfold Value.binaryInt at h
  split at h
  · exact computed_checked h
  · exact computed_checked h
  · exact computed_checked h
  · unfold quotient at h
    split at h
    · cases h
    · exact computed_checked h
  all_goals cases h
  all_goals trivial

theorem computed_binaryCompared {k : ValueKind} {equal : Bool}
    (h : Value.binaryCompared op k equal = .ok v) : v.Computed := by
  unfold Value.binaryCompared at h
  split at h <;> cases h <;> trivial

theorem computed_binary (h : a.binary op b = .ok v) : v.Computed := by
  unfold Value.binary at h
  split at h
  · exact computed_binaryInt h
  · exact computed_binaryCompared h
  · exact computed_binaryCompared h
  · split at h <;> cases h

end Results

/-! ### Faults -/

section Faults

variable {op : String} {a b : Value} {f : Fault}

theorem fault_checked {x : Int} (h : checked x = .error f) :
    ¬Number.InRange x ∧ f = .overflow x := by
  unfold checked at h
  split at h <;> cases h
  exact ⟨‹_›, rfl⟩

/-- Only a function has no truth value. -/
theorem fault_truth (h : a.truth = .error f) :
    ∃ params body s, f = .notTruth (.fn params body s) := by
  induction a with
  | returned a ih => exact ih h
  | fn params body s =>
    cases h
    exact ⟨params, body, s, rfl⟩
  | int | bool | null => cases h

theorem fault_unary (h : a.unary op = .error f) :
    (∃ params body s, f = .notTruth (.fn params body s)) ∨ f = .notNumber a ∨
      f = .unknownUnary op a.kind ∨ ∃ x, a = .int x ∧ ¬Number.InRange (-x) ∧ f = .overflow (-x) := by
  unfold Value.unary at h
  split at h
  · cases htruth : a.truth with
    | error f' =>
      rw [htruth] at h
      cases h
      exact .inl (fault_truth htruth)
    | ok b =>
      rw [htruth] at h
      cases h
  · split at h
    · exact .inr (.inr (.inr ⟨_, rfl, fault_checked h⟩))
    · cases h
      exact .inr (.inl rfl)
  · cases h
    exact .inr (.inr (.inl rfl))

/-- The exact results of the operations on two numbers. -/
def arithmeticResults (x y : Int) : List Int := [x + y, x - y, x * y, x.tdiv y]

theorem fault_binaryInt {x y : Int} (h : Value.binaryInt op x y = .error f) :
    f = .unknownBinary op .integer ∨ f = .divisionByZero x ∨
      ∃ z ∈ arithmeticResults x y, ¬Number.InRange z ∧ f = .overflow z := by
  have hoverflow {z : Int} (hz : z ∈ arithmeticResults x y) (h : checked z = .error f) :
      ∃ z ∈ arithmeticResults x y, ¬Number.InRange z ∧ f = .overflow z :=
    ⟨z, hz, fault_checked h⟩
  unfold Value.binaryInt at h
  split at h
  · exact .inr (.inr (hoverflow (by simp [arithmeticResults]) h))
  · exact .inr (.inr (hoverflow (by simp [arithmeticResults]) h))
  · exact .inr (.inr (hoverflow (by simp [arithmeticResults]) h))
  · unfold quotient at h
    split at h
    · cases h
      exact .inr (.inl rfl)
    · exact .inr (.inr (hoverflow (by simp [arithmeticResults]) h))
  all_goals cases h
  exact .inl rfl

theorem fault_binaryCompared {k : ValueKind} {equal : Bool}
    (h : Value.binaryCompared op k equal = .error f) : f = .unknownBinary op k := by
  unfold Value.binaryCompared at h
  split at h <;> cases h
  rfl

theorem fault_binary (h : a.binary op b = .error f) :
    f = .unknownBinary op a.kind ∨ f = .typeMismatch a.kind op b.kind ∨
      ∃ x y, a = .int x ∧ b = .int y ∧ (f = .divisionByZero x ∨
        ∃ z ∈ arithmeticResults x y, ¬Number.InRange z ∧ f = .overflow z) := by
  unfold Value.binary at h
  split at h
  · rcases fault_binaryInt h with hunknown | hrest
    · exact .inl hunknown
    · exact .inr (.inr ⟨_, _, rfl, rfl, hrest⟩)
  · exact .inl (fault_binaryCompared h)
  · exact .inl (fault_binaryCompared h)
  · split at h
    · cases h
      exact .inl rfl
    · cases h
      exact .inr (.inl rfl)

end Faults

/-! ### How far out of range a result can be -/

theorem Number.InRange.natAbs_le {x : Int} (h : Number.InRange x) : x.natAbs ≤ 2 ^ 63 := by
  obtain ⟨hleast, hgreatest⟩ := h
  unfold Number.least at hleast
  unfold Number.greatest at hgreatest
  omega

theorem natAbs_le_of_mem_arithmeticResults {x y z : Int} (hx : Number.InRange x)
    (hy : Number.InRange y) (hz : z ∈ arithmeticResults x y) : z.natAbs ≤ 2 ^ 126 := by
  have hx := hx.natAbs_le
  have hy := hy.natAbs_le
  simp only [arithmeticResults, List.mem_cons, List.not_mem_nil, or_false] at hz
  rcases hz with rfl | rfl | rfl | rfl
  · omega
  · omega
  · calc (x * y).natAbs = x.natAbs * y.natAbs := Int.natAbs_mul x y
      _ ≤ 2 ^ 63 * 2 ^ 63 := Nat.mul_le_mul hx hy
      _ = 2 ^ 126 := by decide
  · calc (x.tdiv y).natAbs = x.natAbs / y.natAbs := Int.natAbs_tdiv x y
      _ ≤ x.natAbs := Nat.div_le_self _ _
      _ ≤ 2 ^ 126 := Nat.le_trans hx (by decide)

/-- The bound is reached, and no result is further out. -/
example : Number.least * Number.least ∈ arithmeticResults Number.least Number.least ∧
    (Number.least * Number.least).natAbs = 2 ^ 126 := by decide

end Treewalk
