/-
  Treewalk/Text/Window.lean
  =========================
  **Pointing into a text.**  A window shows a piece of the line that holds an
  offset, and a caret under the character at the offset.

  The piece reaches at most `context` characters to either side and never over
  the ends of the line.  Three dots stand for what is left out at either side,
  and the caret moves with the dots in front.  An offset past the end of the
  text points past the end of its last line.

  Offsets are integers.  Where a text is cut, an offset below zero counts back
  from its end (`place`), but the width of the piece and the column of the
  caret are reckoned with the offset as it is given.
-/

namespace Treewalk.Text

/-- Where a text of the given length is cut for an offset: one below zero counts back from
    the end, and one outside the text stands for the nearer end. -/
def place (length : Nat) (offset : Int) : Nat :=
  if offset < 0 then (offset + length).toNat else min length offset.toNat

/-- Where the line of the character at an offset starts. -/
def lineStart (text : List Char) (offset : Int) : Nat :=
  let before := text.take (place text.length offset)
  before.length - (before.reverse.takeWhile (· != '\n')).length

/-- Where the line of the character at an offset ends. -/
def lineEnd (text : List Char) (offset : Int) : Nat :=
  let p := place text.length offset
  p + ((text.drop p).takeWhile (· != '\n')).length

/-- The characters of a text from one offset up to another. -/
def slice (text : List Char) (start stop : Int) : List Char :=
  (text.take (place text.length stop)).drop (place text.length start)

/-- The part of one line that is shown around an offset. -/
structure Window where
  /-- Characters of the line are left out in front of the part. -/
  cutBefore : Bool
  shown : List Char
  /-- Characters of the line are left out behind the part. -/
  cutAfter : Bool
  /-- How far behind the start of the part the offset lies. -/
  column : Int
  deriving DecidableEq, Repr

/-- The window of a text at an offset. -/
def Window.around (text : List Char) (offset context : Int) : Window :=
  let start : Int := max (lineStart text offset) (offset - context)
  let stop : Int := min (lineEnd text offset) (offset + context)
  { cutBefore := decide (lineStart text offset < start)
    shown := slice text start stop
    cutAfter := decide (stop < lineEnd text offset)
    column := offset - start }

def ellipsis (cut : Bool) : List Char := if cut then ['.', '.', '.'] else []

def Window.line (w : Window) : List Char :=
  ellipsis w.cutBefore ++ w.shown ++ ellipsis w.cutAfter

/-- The line that holds the caret, which never stands in front of the line. -/
def Window.caret (w : Window) : List Char :=
  List.replicate (w.column + (ellipsis w.cutBefore).length).toNat ' ' ++ ['^']

/-- How many characters an error report shows to either side. -/
def reportContext : Int := 10

/-- The two lines that point at an offset of a text. -/
def pointAt (text : String) (offset context : Int) : String :=
  let w := Window.around text.toList offset context
  String.ofList (w.line ++ '\n' :: w.caret)

/-! ### Offsets inside the text -/

theorem place_le (length : Nat) (offset : Int) : place length offset ≤ length := by
  unfold place
  split <;> omega

/-- An offset inside a text is the place itself. -/
theorem place_of_le {length n : Nat} (h : n ≤ length) : place length n = n := by
  unfold place
  rw [if_neg (by omega), Int.toNat_natCast]
  omega

theorem lineEnd_le (text : List Char) (offset : Int) : lineEnd text offset ≤ text.length := by
  have hplace := place_le text.length offset
  have hline :
      ((text.drop (place text.length offset)).takeWhile (· != '\n')).length ≤
        (text.drop (place text.length offset)).length :=
    (List.takeWhile_prefix _).length_le
  rw [List.length_drop] at hline
  unfold lineEnd
  dsimp only
  omega

end Treewalk.Text
