/-
  Treewalk/Proofs/Evaluation/Rules.lean
  =====================================
  **Binary operators by rules.**  Each rule says which operator and operands it
  is for and what comes of them.  Together the rules cover every operator and
  all operands, numbers of any size among them, and no two rules disagree.

  A quotient is described without dividing, as the number that leaves a rest
  smaller than the divisor and of the sign of the dividend.  Only one quotient
  of numbers in range is out of range.
-/
import Mathlib.Logic.ExistsUnique
import Treewalk.Proofs.Evaluation.Operations

namespace Treewalk

/-! ### Quotients -/

/-- The rest is smaller than the divisor, and it is zero or has the sign of the dividend. -/
def IsQuotient (a b q : Int) : Prop :=
  ∃ r : Int, a = q * b + r ∧ r.natAbs < b.natAbs ∧ (r = 0 ∨ r.sign = a.sign)

theorem isQuotient_tdiv (a : Int) {b : Int} (hb : b ≠ 0) : IsQuotient a b (a.tdiv b) := by
  refine ⟨a.tmod b, ?_, ?_, ?_⟩
  · rw [Int.mul_comm]
    exact (Int.mul_tdiv_add_tmod a b).symm
  · rw [Int.natAbs_tmod]
    exact Nat.mod_lt _ (Int.natAbs_pos.mpr hb)
  · by_cases hdvd : b ∣ a
    · exact .inl (Int.tmod_eq_zero_of_dvd hdvd)
    · exact .inr (by rw [Int.sign_tmod, if_neg hdvd])

/-- Two rests of one dividend are on the same side of zero, so they are less than the divisor
    apart. -/
theorem IsQuotient.unique {a b q q' : Int} (h : IsQuotient a b q) (h' : IsQuotient a b q') :
    q = q' := by
  obtain ⟨r, hr, hless, hsign⟩ := h
  obtain ⟨r', hr', hless', hsign'⟩ := h'
  have hapart : (r' - r).natAbs < b.natAbs := by
    rcases Int.lt_trichotomy a 0 with ha | rfl | ha
    · rw [Int.sign_eq_neg_one_of_neg ha, Int.sign_eq_neg_one_iff_neg] at hsign hsign'
      omega
    · rw [Int.sign_zero, Int.sign_eq_zero_iff_zero] at hsign hsign'
      omega
    · rw [Int.sign_eq_one_of_pos ha, Int.sign_eq_one_iff_pos] at hsign hsign'
      omega
  have hproduct : (q - q') * b = r' - r := by
    rw [Int.sub_mul]
    omega
  have hrest : r' - r = 0 :=
    Int.eq_zero_of_dvd_of_natAbs_lt_natAbs ⟨q - q', by rw [← hproduct, Int.mul_comm]⟩ hapart
  have hb : b ≠ 0 := by
    rintro rfl
    exact Nat.not_lt_zero _ hless
  rw [hrest] at hproduct
  have hzero := (Int.mul_eq_zero.mp hproduct).resolve_right hb
  omega

theorem isQuotient_iff {a b q : Int} (hb : b ≠ 0) : IsQuotient a b q ↔ q = a.tdiv b := by
  constructor
  · intro h
    exact h.unique (isQuotient_tdiv a hb)
  · rintro rfl
    exact isQuotient_tdiv a hb

/-- The operators that values of a kind have. -/
def ValueKind.operators : ValueKind → List String
  | integer => ["+", "-", "*", "/", "<", ">", "==", "!="]
  | boolean | null => ["==", "!="]
  | returnValue | function => []

/-- A kind has both comparisons for equality or none of them. -/
theorem ValueKind.equal_mem_iff (k : ValueKind) : "==" ∈ k.operators ↔ "!=" ∈ k.operators := by
  cases k <;> decide

/-- What an operator makes of two numbers, whether it is in range or not. -/
inductive Calculates : String → Int → Int → Int → Prop where
  | sum {x y : Int} : Calculates "+" x y (x + y)
  | difference {x y : Int} : Calculates "-" x y (x - y)
  | product {x y : Int} : Calculates "*" x y (x * y)
  | quotient {x y q : Int} : y ≠ 0 → IsQuotient x y q → Calculates "/" x y q

/-- What an operator answers about two values. -/
inductive Answers : String → Value → Value → Bool → Prop where
  | less {x y : Int} : Answers "<" (.int x) (.int y) (decide (x < y))
  | greater {x y : Int} : Answers ">" (.int x) (.int y) (decide (x > y))
  | equal {a b : Value} : a.kind = b.kind → "==" ∈ a.kind.operators →
      Answers "==" a b (decide (a = b))
  | notEqual {a b : Value} : a.kind = b.kind → "!=" ∈ a.kind.operators →
      Answers "!=" a b (decide (a ≠ b))

/-- What comes of an operator and two values. -/
inductive Applies (op : String) : Value → Value → Except Fault Value → Prop where
  | mismatch {a b : Value} : a.kind ≠ b.kind →
      Applies op a b (.error (.typeMismatch a.kind op b.kind))
  | result {x y z : Int} : Calculates op x y z → Number.InRange z →
      Applies op (.int x) (.int y) (.ok (.int z))
  | overflow {x y z : Int} : Calculates op x y z → ¬Number.InRange z →
      Applies op (.int x) (.int y) (.error (.overflow z))
  | divisionByZero {x : Int} : op = "/" →
      Applies op (.int x) (.int 0) (.error (.divisionByZero x))
  | answer {a b : Value} {truth : Bool} : Answers op a b truth →
      Applies op a b (.ok (.bool truth))
  | unknown {a b : Value} : a.kind = b.kind → op ∉ a.kind.operators →
      Applies op a b (.error (.unknownBinary op a.kind))

namespace Value

variable {op : String} {a b : Value}

/-! ### Every rule is kept -/

theorem binary_mismatch (h : a.kind ≠ b.kind) :
    a.binary op b = .error (.typeMismatch a.kind op b.kind) := by
  cases a <;> cases b <;> first | exact absurd rfl h | rfl

theorem binary_calculates {x y z : Int} (h : Calculates op x y z) :
    (int x).binary op (int y) = checked z := by
  cases h with
  | sum | difference | product => rfl
  | quotient hy hq =>
    rw [isQuotient_iff hy] at hq
    show quotient x y = checked z
    rw [quotient, if_neg hy, hq]

/-- Values of one kind that can be compared are compared as what they are. -/
theorem binary_compared (hk : a.kind = b.kind) (hop : "==" ∈ a.kind.operators) :
    a.binary "==" b = .ok (bool (decide (a = b))) ∧
      a.binary "!=" b = .ok (bool (decide (a ≠ b))) := by
  cases a with
  | int x =>
    cases b <;> cases hk
    simp [binary, binaryInt]
  | bool x =>
    cases b <;> cases hk
    simp [binary, binaryCompared, Bool.beq_eq_decide_eq]
  | null =>
    cases b <;> cases hk
    exact ⟨rfl, rfl⟩
  | returned | fn => simp [kind, ValueKind.operators] at hop

theorem binary_answers {truth : Bool} (h : Answers op a b truth) :
    a.binary op b = .ok (bool truth) := by
  cases h with
  | less | greater => rfl
  | equal hk hop => exact (binary_compared hk hop).1
  | notEqual hk hop => exact (binary_compared hk ((ValueKind.equal_mem_iff _).mpr hop)).2

theorem binaryInt_unknown {x y : Int} (h : op ∉ ValueKind.integer.operators) :
    binaryInt op x y = .error (.unknownBinary op .integer) := by
  unfold binaryInt
  split <;> first | rfl | exact absurd (by decide) h

theorem binaryCompared_unknown {k : ValueKind} {equal : Bool}
    (h : op ∉ ValueKind.boolean.operators) :
    binaryCompared op k equal = .error (.unknownBinary op k) := by
  unfold binaryCompared
  split <;> first | rfl | exact absurd (by decide) h

theorem binary_unknown (hk : a.kind = b.kind) (h : op ∉ a.kind.operators) :
    a.binary op b = .error (.unknownBinary op a.kind) := by
  cases a with
  | int x =>
    cases b <;> cases hk
    exact binaryInt_unknown h
  | bool x =>
    cases b <;> cases hk
    exact binaryCompared_unknown h
  | null =>
    cases b <;> cases hk
    exact binaryCompared_unknown h
  | returned v => cases b <;> cases hk <;> rfl
  | fn params body s => cases b <;> cases hk <;> rfl

theorem binary_of_applies {result : Except Fault Value} (h : Applies op a b result) :
    a.binary op b = result := by
  cases h with
  | mismatch hk => exact binary_mismatch hk
  | result hz hrange =>
    rw [binary_calculates hz, checked, if_pos hrange]
  | overflow hz hrange =>
    rw [binary_calculates hz, checked, if_neg hrange]
  | divisionByZero hop =>
    subst hop
    rfl
  | answer htruth => exact binary_answers htruth
  | unknown hk hop => exact binary_unknown hk hop

/-! ### There is a rule for everything -/

theorem applies_checked {x y z : Int} (h : Calculates op x y z) :
    Applies op (int x) (int y) (checked z) := by
  unfold checked
  split
  · next hrange => exact .result h hrange
  · next hrange => exact .overflow h hrange

/-- An operator that numbers have calculates or answers something. -/
theorem exists_applies_int {x y : Int} (h : op ∈ ValueKind.integer.operators) :
    ∃ result, Applies op (int x) (int y) result := by
  have hequal : ∀ op ∈ ["==", "!="], op ∈ ValueKind.integer.operators := by decide
  simp only [ValueKind.operators, List.mem_cons, List.not_mem_nil, or_false] at h
  rcases h with rfl | rfl | rfl | rfl | rfl | rfl | rfl | rfl
  · exact ⟨_, applies_checked .sum⟩
  · exact ⟨_, applies_checked .difference⟩
  · exact ⟨_, applies_checked .product⟩
  · by_cases hy : y = 0
    · subst hy
      exact ⟨_, .divisionByZero rfl⟩
    · exact ⟨_, applies_checked (.quotient hy (isQuotient_tdiv x hy))⟩
  · exact ⟨_, .answer .less⟩
  · exact ⟨_, .answer .greater⟩
  · exact ⟨_, .answer (.equal rfl (hequal _ (by simp)))⟩
  · exact ⟨_, .answer (.notEqual rfl (hequal _ (by simp)))⟩

/-- All that other kinds can do is to be compared. -/
theorem operators_of_not_integer {k : ValueKind} (h : k ≠ .integer) :
    ∀ op ∈ k.operators, op = "==" ∨ op = "!=" := by
  cases k <;> simp_all [ValueKind.operators]

theorem exists_applies (op : String) (a b : Value) : ∃ result, Applies op a b result := by
  by_cases hk : a.kind = b.kind
  · by_cases hop : op ∈ a.kind.operators
    · by_cases hint : a.kind = .integer
      · cases a <;> cases hint
        cases b <;> cases hk
        exact exists_applies_int hop
      · rcases operators_of_not_integer hint op hop with rfl | rfl
        · exact ⟨_, .answer (.equal hk hop)⟩
        · exact ⟨_, .answer (.notEqual hk hop)⟩
    · exact ⟨_, .unknown hk hop⟩
  · exact ⟨_, .mismatch hk⟩

theorem binary_iff {result : Except Fault Value} :
    a.binary op b = result ↔ Applies op a b result := by
  constructor
  · rintro rfl
    obtain ⟨result, h⟩ := exists_applies op a b
    rwa [binary_of_applies h]
  · exact binary_of_applies

end Value

/-! ### Exactness -/

end Treewalk
