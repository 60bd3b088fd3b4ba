import RegexAutomaton.CharSet

/-!
# Character classes

What a bracket expression stands for: a finite set of characters, accepted as
they are or, when the class is negated, rejected while everything else is
accepted (`accepts_iff`).

Two notions of sameness are needed.  Equality of values looks at both fields.
`sameMembers` looks at the set alone, so that a class and its negation are alike.
-/

set_option autoImplicit false

namespace RegexAutomaton

/-- A set of characters with a flag that inverts the test. -/
structure CharClass where
  members : CharSet
  negate : Bool
  deriving DecidableEq

namespace CharClass

/-- The class without members. -/
def empty (negate : Bool) : CharClass := ⟨∅, negate⟩

/-- Adds one character to the members. -/
def insert (k : CharClass) (c : Char) : CharClass := { k with members := k.members.insert c }

/-- Adds the characters of a set to the members. -/
def insertAll (k : CharClass) (s : CharSet) : CharClass := { k with members := k.members.union s }

/-- Sets whether the test is inverted. -/
def setNegate (k : CharClass) (negate : Bool) : CharClass := { k with negate }

/-- Membership, inverted when the class is negated. -/
def accepts (k : CharClass) (c : Char) : Bool := k.members.contains c != k.negate

/-- Tells whether two classes have the same members, negated or not. -/
def sameMembers (k l : CharClass) : Bool := decide (k.members = l.members)

theorem accepts_iff {k : CharClass} {c : Char} :
    k.accepts c = true ↔ (c ∈ k.members ↔ k.negate = false) := by
  rw [accepts, ← CharSet.contains_iff]
  cases k.members.contains c <;> cases k.negate <;> decide

/-- The class as printed: its members in ascending order, after a caret if negated. -/
def text (k : CharClass) : List Char :=
  (if k.negate then ['^'] else []) ++ "Range<".toList ++ k.members.toList ++ ['>']

end CharClass

end RegexAutomaton
