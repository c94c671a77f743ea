/-
  Treewalk/Text/Quoted.lean
  =========================
  **Quoted text**: how a text is shown between quotes, on one line.

  A text stands between single quotes, unless it has a single quote and no
  double quote; then it stands between double quotes.  A backslash goes before
  the surrounding quote and before a backslash, tab, line feed and carriage
  return have letters, and every other character that is not printable is
  given by its code point in hexadecimal, with two, four or eight digits.
-/
import Treewalk.Text.Printable

namespace Treewalk.Text

def singleQuote : Char := '\x27'
def doubleQuote : Char := '\x22'
def backslash : Char := '\x5C'

/-- The quote that surrounds a text. -/
def surroundingQuote (text : List Char) : Char :=
  if text.contains singleQuote && !text.contains doubleQuote then doubleQuote else singleQuote

/-- A number in hexadecimal, with zeros in front up to the given width. -/
def hex (width n : Nat) : List Char :=
  let digits := Nat.toDigits 16 n
  List.replicate (width - digits.length) '0' ++ digits

/-- What follows the backslash for a character given by its code point. -/
def hexEscape (n : Nat) : List Char :=
  if n < 0x100 then 'x' :: hex 2 n
  else if n < 0x10000 then 'u' :: hex 4 n
  else 'U' :: hex 8 n

def quotedChar (quote c : Char) : List Char :=
  if c = quote || c = backslash then [backslash, c]
  else if c = '\t' then [backslash, 't']
  else if c = '\n' then [backslash, 'n']
  else if c = '\r' then [backslash, 'r']
  else if isPrintable c then [c]
  else backslash :: hexEscape c.toNat

def quoted (text : String) : String :=
  let quote := surroundingQuote text.toList
  String.ofList (quote :: text.toList.flatMap (quotedChar quote) ++ [quote])

end Treewalk.Text
