import RegexAutomaton.CharClass

/-!
# Tests on a single character

An atom consumes exactly one character of the subject and either accepts or
rejects it.  It is a character, the wildcard, or a character class, and each of
the three can be negated.  A caret in a pattern flips the negation of the atom it
precedes (`flipNegation`), which flips what the atom accepts
(`accepts_flipNegation`).
-/

set_option autoImplicit false

namespace RegexAutomaton

/-- A test on one character. -/
inductive Atom where
  /-- The given character, or, when negated, any other. -/
  | char (c : Char) (negate : Bool)
  /-- Any character, or, when negated, none. -/
  | any (negate : Bool)
  /-- A character that the class accepts. -/
  | within (k : CharClass)
  deriving DecidableEq

namespace Atom

/-- Tells whether the atom accepts the character. -/
def accepts : Atom → Char → Bool
  | .char d negate, c => (d == c) != negate
  | .any negate, _ => !negate
  | .within k, c => k.accepts c

/-- Inverts the test if `flip` is set. -/
def flipNegation (flip : Bool) : Atom → Atom
  | .char c negate => .char c (negate ^^ flip)
  | .any negate => .any (negate ^^ flip)
  | .within k => .within { k with negate := k.negate ^^ flip }

@[simp] theorem flipNegation_false (a : Atom) : a.flipNegation false = a := by
  cases a <;> simp [flipNegation]

/-- **Flipping the negation flips the outcome of every test.** -/
theorem accepts_flipNegation (flip : Bool) (a : Atom) (c : Char) :
    (a.flipNegation flip).accepts c = (a.accepts c ^^ flip) := by
  cases a with
  | char d negate => cases negate <;> cases flip <;> simp [flipNegation, accepts]
  | any negate => cases negate <;> cases flip <;> rfl
  | within k =>
    simp only [flipNegation, accepts, CharClass.accepts]
    cases k.members.contains c <;> cases k.negate <;> cases flip <;> rfl

/-- Equality up to the negation of character classes, which is not compared. -/
def alike : Atom → Atom → Bool
  | .within k, .within l => k.sameMembers l
  | a, b => decide (a = b)

/-- The atom as printed: the character raw, the wildcard as `any`, a class by its members. -/
def text : Atom → List Char
  | .char c negate => "Character<".toList ++ (if negate then ['^'] else []) ++ [c, '>']
  | .any negate => "Character<".toList ++ (if negate then ['^'] else []) ++ "any>".toList
  | .within k => k.text

end Atom

end RegexAutomaton
