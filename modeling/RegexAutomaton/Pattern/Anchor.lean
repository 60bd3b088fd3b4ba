/-!
# Anchors

A pattern may be tied to the start of the subject by a caret in front and to its
end by a dollar sign at the back.  Where it is not tied it may be preceded or
followed by anything, which is the same as writing `.*` on that side.  `anchored`
makes this explicit: its result always speaks about the whole subject.

A dollar sign that is escaped is an ordinary character.  Whether it is escaped is
told by the backslashes before it: they escape one another in pairs, so an odd
number of them leaves one that escapes the dollar sign (`endsInEscape`).
-/

set_option autoImplicit false

namespace RegexAutomaton.Pattern

/-- How many backslashes end the text. -/
def trailingBackslashes (text : List Char) : Nat := (text.reverse.takeWhile (· == '\\')).length

/-- Tells whether the text ends in a backslash that no other backslash escapes. -/
def endsInEscape (text : List Char) : Bool := trailingBackslashes text % 2 == 1

/-- Tells whether the text ends in a dollar sign that is not escaped. -/
def endsInAnchor (text : List Char) : Bool :=
  text.getLast? == some '$' && !endsInEscape text.dropLast

/-- Stands for any characters, as many as there are. -/
def anything : List Char := ['.', '*']

/-- The pattern without the caret in front, or with `.*` in its place. -/
def anchorStart : List Char → List Char
  | '^' :: rest => rest
  | text => anything ++ text

/-- The pattern without the dollar sign at the back, or with `.*` in its place. -/
def anchorEnd (text : List Char) : List Char :=
  if endsInAnchor text then text.dropLast else text ++ anything

/-- The pattern that speaks about the whole subject. -/
def anchored (text : List Char) : List Char := anchorEnd (anchorStart text)

end RegexAutomaton.Pattern
