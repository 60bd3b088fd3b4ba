/-!
# Repetition operators

The three operators that may follow an item of a pattern, with the character that
writes each.  Reading and writing are inverse to each other (`ofChar?_eq_some_iff`).
-/

set_option autoImplicit false

namespace RegexAutomaton

/-- How often an item may be repeated. -/
inductive Quantifier where
  | oneOrMore
  | zeroOrMore
  | zeroOrOne
  deriving DecidableEq

namespace Quantifier

/-- The operator that a character writes, if it writes one. -/
def ofChar? : Char → Option Quantifier
  | '+' => some .oneOrMore
  | '*' => some .zeroOrMore
  | '?' => some .zeroOrOne
  | _ => none

/-- The character that writes the operator. -/
def toChar : Quantifier → Char
  | .oneOrMore => '+'
  | .zeroOrMore => '*'
  | .zeroOrOne => '?'

@[simp] theorem ofChar?_toChar (q : Quantifier) : ofChar? q.toChar = some q := by
  cases q <;> rfl

theorem ofChar?_eq_some_iff {c : Char} {q : Quantifier} : ofChar? c = some q ↔ c = q.toChar := by
  constructor
  · intro h
    unfold ofChar? at h
    split at h <;> simp_all [toChar] <;> subst h <;> rfl
  · rintro rfl
    exact ofChar?_toChar q

end Quantifier

end RegexAutomaton
