import Mathlib.Computability.Language
import Mathlib.Order.CompletePartialOrder
import RegexAutomaton.Expr

/-!
# The language of an expression

An expression denotes a set of words, by recursion on its tree: an atom the words of
one character that it accepts, concatenation and alternation the product and the sum
of languages, and the repetition operators the powers that they allow.
-/

set_option autoImplicit false

namespace RegexAutomaton

open Computability

/-- The words of one character that the atom accepts. -/
def Atom.language (a : Atom) : Language Char :=
  show Set (List Char) from {word | ∃ c, a.accepts c = true ∧ word = [c]}

theorem Atom.mem_language {a : Atom} {word : List Char} :
    word ∈ a.language ↔ ∃ c, a.accepts c = true ∧ word = [c] := Iff.rfl

/-- One or more, any number, or at most one word of a language, one after the other. -/
def Quantifier.language (l : Language Char) : Quantifier → Language Char
  | .oneOrMore => l * l∗
  | .zeroOrMore => l∗
  | .zeroOrOne => 1 + l

/-- The words that an expression stands for. -/
def Expr.language : Expr → Language Char
  | .atom a => a.language
  | .repeated body q => q.language body.language
  | .cat left right => left.language * right.language
  | .alt left right => left.language + right.language

/-- The words of a reading that may ask for nothing, which stands for the empty word. -/
def Expr.languageOf : Option Expr → Language Char
  | none => 1
  | some e => e.language

end RegexAutomaton
