/-
  Treewalk/Token/Scan.lean
  ========================
  **Scanning**: how a text is cut into tokens.

  Blanks separate tokens.  The longest of the known forms is taken: the two
  operators of two characters before the characters they start with, whole
  runs of digits, whole runs of word characters.  A character of no form is an
  illegal token of its own, so every text can be scanned.

  A `Cursor` scans token by token.  At the end of the text it answers the end
  token, as often as it is asked.  `scan` collects the tokens before the end.
-/
import Treewalk.Text.Character
import Treewalk.Token.Basic

namespace Treewalk

open Text

/-! ### One token -/

/-- A token that was cut off a text, as characters, and the text behind it. -/
structure Cut where
  kind : Kind
  lexeme : List Char
  rest : List Char
  deriving DecidableEq, Repr

/-- Cuts off `c` and the characters after it that are of its class. -/
def Cut.run (kind : List Char → Kind) (isMember : Char → Bool) (c : Char) (cs : List Char) : Cut :=
  let lexeme := c :: cs.takeWhile isMember
  ⟨kind lexeme, lexeme, cs.dropWhile isMember⟩

/-- The first token of a text that starts with a character that is not blank. -/
def Cut.first : Char → List Char → Cut
  | '=', '=' :: cs => ⟨.equal, ['=', '='], cs⟩
  | '!', '=' :: cs => ⟨.notEqual, ['!', '='], cs⟩
  | c, cs =>
    match Kind.ofChar? c with
    | some kind => ⟨kind, [c], cs⟩
    | none =>
      if c.isDigit then Cut.run (fun _ => .int) Char.isDigit c cs
      else if isWord c then Cut.run (fun word => .ofWord (String.ofList word)) isWord c cs
      else ⟨.illegal, [c], cs⟩

def Cut.token (cut : Cut) : Token := ⟨cut.kind, String.ofList cut.lexeme⟩

/-! ### The forms of a token -/

/-- A character that makes a token by itself is in no class. -/
theorem Kind.classes_of_ofChar? {c : Char} {k : Kind} (h : Kind.ofChar? c = some k) :
    isBlank c = false ∧ isWord c = false ∧ c.isDigit = false := by
  unfold Kind.ofChar? at h
  split at h <;> cases h <;> decide

theorem Kind.ofChar?_of_class {c : Char} (h : isWord c = true ∨ c.isDigit = true) :
    Kind.ofChar? c = none := by
  cases hk : Kind.ofChar? c with
  | none => rfl
  | some k =>
    obtain ⟨-, hword, hdigit⟩ := Kind.classes_of_ofChar? hk
    simp [hword, hdigit] at h

/-- What can be cut off in front of a text that goes on behind `c`. -/
inductive Cut.Form (c : Char) : List Char → Cut → Prop where
  | doubled {kind : Kind} {cs : List Char} :
      c = '=' ∧ kind = .equal ∨ c = '!' ∧ kind = .notEqual →
      Form c ('=' :: cs) ⟨kind, [c, '='], cs⟩
  | symbol {kind : Kind} {cs : List Char} : Kind.ofChar? c = some kind →
      (c = '=' ∨ c = '!' → cs.head? ≠ some '=') → Form c cs ⟨kind, [c], cs⟩
  | number {cs : List Char} : c.isDigit = true →
      Form c cs (Cut.run (fun _ => .int) Char.isDigit c cs)
  | word {cs : List Char} : isWord c = true →
      Form c cs (Cut.run (fun word => .ofWord (String.ofList word)) isWord c cs)
  | illegal {cs : List Char} : Kind.ofChar? c = none → c.isDigit = false → isWord c = false →
      Form c cs ⟨.illegal, [c], cs⟩

theorem Cut.form_first (c : Char) (cs : List Char) : Cut.Form c cs (Cut.first c cs) := by
  unfold Cut.first
  split
  · exact .doubled (.inl ⟨rfl, rfl⟩)
  · exact .doubled (.inr ⟨rfl, rfl⟩)
  · next hequal hnotEqual =>
    split
    · next kind hkind =>
      refine .symbol hkind fun hsingle hnext => ?_
      obtain ⟨tail, rfl⟩ := List.head?_eq_some_iff.mp hnext
      rcases hsingle with rfl | rfl
      · exact hequal tail rfl rfl
      · exact hnotEqual tail rfl rfl
    · next hnone =>
      split
      · next hdigit => exact .number hdigit
      · next hdigit =>
        split
        · next hword => exact .word hword
        · next hword => exact .illegal hnone (by simpa using hdigit) (by simpa using hword)

/-- The forms exclude each other, so the one that is there is the one that is cut off. -/
theorem Cut.Form.eq_first {c : Char} {cs : List Char} {cut : Cut} (h : Cut.Form c cs cut) :
    Cut.first c cs = cut := by
  have hclass (hc : isWord c = true ∨ c.isDigit = true) :
      Cut.first c cs =
        if c.isDigit then Cut.run (fun _ => .int) Char.isDigit c cs
        else Cut.run (fun word => .ofWord (String.ofList word)) isWord c cs := by
    have hnone := Kind.ofChar?_of_class hc
    unfold Cut.first
    split
    · cases hnone
    · cases hnone
    · simp only [hnone]
      rcases hc with hword | hdigit
      · simp only [hword, if_true]
      · simp only [hdigit, if_true]
  cases h with
  | doubled hkind => rcases hkind with ⟨rfl, rfl⟩ | ⟨rfl, rfl⟩ <;> rfl
  | symbol hkind hnext =>
    unfold Cut.first
    split
    · simp at hnext
    · simp at hnext
    · simp only [hkind]
  | number hdigit => rw [hclass (.inr hdigit), if_pos hdigit]
  | word hword => rw [hclass (.inl hword), if_neg (by simp [isDigit_of_isWord hword])]
  | illegal hnone hdigit hword =>
    unfold Cut.first
    split
    · cases hnone
    · cases hnone
    · simp [hnone, hdigit, hword]

/-! ### Cursors -/

/-- A place in a text: how many characters lie before it, and those behind it. -/
structure Cursor where
  offset : Nat
  rest : List Char
  deriving DecidableEq, Repr

namespace Cursor

def ofText (text : String) : Cursor := ⟨0, text.toList⟩

def skipBlanks (c : Cursor) : Cursor :=
  ⟨c.offset + (c.rest.takeWhile isBlank).length, c.rest.dropWhile isBlank⟩

/-- The next token, unless only blanks are left, and the cursor behind it. -/
def next? (c : Cursor) : Option (Placed × Cursor) :=
  let c := c.skipBlanks
  match c.rest with
  | [] => none
  | ch :: cs =>
    let cut := Cut.first ch cs
    some (⟨cut.token, c.offset⟩, ⟨c.offset + cut.lexeme.length, cut.rest⟩)

def next (c : Cursor) : Placed × Cursor :=
  match c.next? with
  | some step => step
  | none => (⟨.eof, c.skipBlanks.offset⟩, c.skipBlanks)

end Cursor

/-! ### Nothing is lost -/

/-- A token and the text behind it make up the text it was cut off. -/
theorem Cut.lexeme_append_rest_first (c : Char) (cs : List Char) :
    (Cut.first c cs).lexeme ++ (Cut.first c cs).rest = c :: cs := by
  have hform := Cut.form_first c cs
  generalize Cut.first c cs = cut at hform ⊢
  cases hform with
  | doubled | symbol | illegal => rfl
  | number | word => simp [Cut.run, List.takeWhile_append_dropWhile]

/-! ### Every step moves on -/

theorem length_dropWhile_le (p : Char → Bool) (cs : List Char) :
    (cs.dropWhile p).length ≤ cs.length :=
  (List.dropWhile_suffix p).length_le

theorem Cut.length_rest_first (c : Char) (cs : List Char) :
    (Cut.first c cs).rest.length ≤ cs.length := by
  have hform := Cut.form_first c cs
  generalize Cut.first c cs = cut at hform ⊢
  cases hform with
  | doubled | symbol | illegal => simp
  | number | word => exact length_dropWhile_le _ cs

theorem Cursor.next?_eq_none_iff {c : Cursor} : c.next? = none ↔ c.skipBlanks.rest = [] := by
  unfold Cursor.next?
  cases hrest : c.skipBlanks.rest <;> simp [hrest]

theorem Cursor.next?_eq_some_iff {c c' : Cursor} {t : Placed} :
    c.next? = some (t, c') ↔ ∃ ch cs, c.skipBlanks.rest = ch :: cs ∧
      t = ⟨(Cut.first ch cs).token, c.skipBlanks.offset⟩ ∧
      c' = ⟨c.skipBlanks.offset + (Cut.first ch cs).lexeme.length, (Cut.first ch cs).rest⟩ := by
  unfold Cursor.next?
  cases hrest : c.skipBlanks.rest with
  | nil => simp [hrest]
  | cons ch cs =>
    simp only [hrest, Option.some.injEq, Prod.mk.injEq, List.cons.injEq]
    constructor
    · rintro ⟨rfl, rfl⟩
      exact ⟨ch, cs, ⟨rfl, rfl⟩, rfl, rfl⟩
    · rintro ⟨_, _, ⟨rfl, rfl⟩, rfl, rfl⟩
      exact ⟨rfl, rfl⟩

theorem Cursor.length_rest_next? {c c' : Cursor} {t : Placed} (h : c.next? = some (t, c')) :
    c'.rest.length < c.rest.length := by
  have hskip : c.skipBlanks.rest.length ≤ c.rest.length := length_dropWhile_le _ _
  obtain ⟨ch, cs, hrest, -, rfl⟩ := Cursor.next?_eq_some_iff.mp h
  have hcut := Cut.length_rest_first ch cs
  rw [hrest, List.length_cons] at hskip
  show (Cut.first ch cs).rest.length < _
  omega

/-! ### All tokens -/

/-- The tokens from a cursor up to the end of the text, behind those read before it,
    which are given in reverse; and the cursor at the end. -/
def Cursor.collect (before : List Placed) (c : Cursor) : List Placed × Cursor :=
  match h : c.next? with
  | none => (before.reverse, c.skipBlanks)
  | some (t, c') =>
    have := Cursor.length_rest_next? h
    Cursor.collect (t :: before) c'
termination_by c.rest.length

/-- The tokens from a cursor up to and with the next end token, and the cursor behind it. -/
def Cursor.drain (c : Cursor) : List Placed × Cursor :=
  let (tokens, last) := c.collect []
  (tokens ++ [⟨.eof, last.offset⟩], last)

/-- The tokens of a text, without the end token. -/
def scan (text : String) : List Placed := ((Cursor.ofText text).collect []).1

/-- The tokens of a text, with the end token. -/
def tokenize (text : String) : List Placed := (Cursor.ofText text).drain.1

end Treewalk
