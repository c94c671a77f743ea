/-
  Treewalk/Text/Character.lean
  ============================
  **Character classes** of the language: blanks, digits, punctuation, control
  characters, and the word characters, which are what is left over.

  Digits are the ten ASCII digits (`Char.isDigit`).  Blanks are taken from the
  whole of Unicode, punctuation from ASCII alone, so a word may be written in
  any script.
-/

namespace Treewalk.Text

/-- Membership of a character in one of a list of closed ranges of code points. -/
def inRanges (ranges : List (Nat × Nat)) (c : Char) : Bool :=
  ranges.any fun r => decide (r.1 ≤ c.toNat) && decide (c.toNat ≤ r.2)

/-- The code points of blank characters. -/
def blankRanges : List (Nat × Nat) :=
  [(0x09, 0x0D), (0x1C, 0x20), (0x85, 0x85), (0xA0, 0xA0), (0x1680, 0x1680),
   (0x2000, 0x200A), (0x2028, 0x2029), (0x202F, 0x202F), (0x205F, 0x205F), (0x3000, 0x3000)]

/-- A blank separates tokens and means nothing else. -/
def isBlank (c : Char) : Bool := inRanges blankRanges c

/-- The code points of ASCII punctuation: printable ASCII less space, digits and letters. -/
def punctuationRanges : List (Nat × Nat) :=
  [(0x21, 0x2F), (0x3A, 0x40), (0x5B, 0x60), (0x7B, 0x7E)]

def isPunctuation (c : Char) : Bool := inRanges punctuationRanges c

/-- The control characters: the two ranges C0 and C1, and delete. -/
def isControl (c : Char) : Bool := inRanges [(0x00, 0x1F), (0x7F, 0x9F)] c

/-- A word character is any character that belongs to none of the other classes. -/
def isWord (c : Char) : Bool :=
  !c.isDigit && !isBlank c && !isPunctuation c && !isControl c

/-- A text without the blanks at its two ends. -/
def trim (text : List Char) : List Char :=
  ((text.dropWhile isBlank).reverse.dropWhile isBlank).reverse

/-! ### The classes do not overlap -/

theorem isWord_of_isBlank {c : Char} (h : isBlank c = true) : isWord c = false := by
  simp [isWord, h]

theorem isWord_of_isDigit {c : Char} (h : c.isDigit = true) : isWord c = false := by
  simp [isWord, h]

theorem isBlank_of_isWord {c : Char} (h : isWord c = true) : isBlank c = false := by
  cases hblank : isBlank c with
  | false => rfl
  | true => simp [isWord_of_isBlank hblank] at h

theorem isDigit_of_isWord {c : Char} (h : isWord c = true) : c.isDigit = false := by
  cases hdigit : c.isDigit with
  | false => rfl
  | true => simp [isWord_of_isDigit hdigit] at h

theorem isBlank_of_isDigit {c : Char} (h : c.isDigit = true) : isBlank c = false := by
  simp only [Char.isDigit, Bool.and_eq_true, decide_eq_true_eq, ge_iff_le,
    UInt32.le_iff_toNat_le] at h
  have h₁ : 48 ≤ c.toNat := h.1
  have h₂ : c.toNat ≤ 57 := h.2
  simp only [isBlank, inRanges, blankRanges, List.any_cons, List.any_nil, Bool.or_false,
    Bool.or_eq_false_iff, Bool.and_eq_false_iff, decide_eq_false_iff_not]
  omega

end Treewalk.Text
