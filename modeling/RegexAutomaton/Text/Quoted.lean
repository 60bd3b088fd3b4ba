/-!
# Quoted text

Text is quoted for a log: between quotation marks, with characters that would be
misread or invisible written as escapes.  The mark itself and the backslash get a
backslash in front, the common control characters have a letter, and the remaining
ones are written by their code point in hexadecimal.  Everything else is raw.

A text has double quotation marks and a single character has single ones.  The mark
that is not in use needs no escape.
-/

set_option autoImplicit false

namespace RegexAutomaton.Text

/-- Tells whether the character is a control character: below the space, or from delete to
the end of the second block of controls. -/
def isControl (c : Char) : Bool :=
  decide (c.toNat < 0x20) || (decide (0x7f ≤ c.toNat) && decide (c.toNat ≤ 0x9f))

/-- The letter that stands for a control character after a backslash, if it has one. -/
def controlLetter? : Char → Option Char
  | '\t' => some 't'
  | '\n' => some 'n'
  | '\r' => some 'r'
  | '\x00' => some '0'
  | _ => none

/-- The character as it stands between the given quotation marks. -/
def escape (mark c : Char) : List Char :=
  if c = mark ∨ c = '\\' then ['\\', c]
  else
    match controlLetter? c with
    | some letter => ['\\', letter]
    | none =>
      if isControl c then ['\\', 'u', '{'] ++ Nat.toDigits 16 c.toNat ++ ['}'] else [c]

/-- A text between double quotation marks. -/
def quote (text : List Char) : List Char := '"' :: text.flatMap (escape '"') ++ ['"']

/-- A character between single quotation marks. -/
def quoteChar (c : Char) : List Char := '\'' :: escape '\'' c ++ ['\'']

end RegexAutomaton.Text
