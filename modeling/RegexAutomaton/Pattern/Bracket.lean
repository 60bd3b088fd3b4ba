import RegexAutomaton.CharClass

/-!
# The contents of square brackets

Between square brackets `x-y` abbreviates the characters from `x` to `y`, any other
character stands for itself, and a caret in front negates the class.

The contents are read in one pass that holds back at most two characters.  When a
third arrives, either the one in the middle is a dash and all three are spent on an
interval, or the oldest stands for itself and is released.  What is still held back
at the end stands for itself, so a dash in first or last place is an ordinary
character.

What is released are intervals, since the contents may stand for very many characters.
`expand` lists these one by one, and `members` is their set (`mem_members`).
-/

set_option autoImplicit false

namespace RegexAutomaton.Pattern.Bracket

/-- The characters held back while bracket contents are read, oldest first. -/
inductive Window where
  | empty
  | one (first : Char)
  | two (first second : Char)

namespace Window

/-- Takes in one character: what it releases, and what is held back from then on.  An
interval whose ends are in the wrong order holds nothing and is not released. -/
def push : Window → Char → List CharInterval × Window
  | .empty, c => ([], .one c)
  | .one first, c => ([], .two first c)
  | .two first second, c =>
    if second = '-' then ((CharInterval.between? first c).toList, .empty)
    else ([.single first], .two second c)

/-- The characters held back. -/
def toList : Window → List Char
  | .empty => []
  | .one first => [first]
  | .two first second => [first, second]

/-- Everything released while the characters are taken in and at the end of them. -/
def release (w : Window) : List Char → List CharInterval
  | [] => w.toList.map .single
  | c :: cs => (w.push c).1 ++ (w.push c).2.release cs

end Window

/-- The intervals that bracket contents without their negating caret stand for, in order of
appearance. -/
def segments (contents : List Char) : List CharInterval := Window.empty.release contents

/-- The characters that bracket contents without their negating caret stand for, in order
of appearance and with repetitions. -/
def expand (contents : List Char) : List Char := (segments contents).flatMap CharInterval.toList

/-- The set of the characters that bracket contents without their negating caret stand
for. -/
def members (contents : List Char) : CharSet := .ofIntervals (segments contents)

/-- **The set holds what the list lists.** -/
theorem mem_members {c : Char} {contents : List Char} :
    c ∈ members contents ↔ c ∈ expand contents := by
  simp [members, expand]

/-- The contents without a negating caret, and whether there was one. -/
def splitCaret : List Char → Bool × List Char
  | '^' :: contents => (true, contents)
  | contents => (false, contents)

/-- The class that bracket contents stand for. -/
def toClass (contents : List Char) : CharClass :=
  ⟨members (splitCaret contents).2, (splitCaret contents).1⟩

end RegexAutomaton.Pattern.Bracket
