import RegexAutomaton.Atom
import RegexAutomaton.Quantifier

/-!
# Regular expressions

A regular expression is a tree with atoms at its leaves, the repetition operators
as unary nodes, and concatenation and alternation as binary nodes.  A pattern that
asks for nothing at all, such as the one anchored on both sides with nothing in
between, has no tree; where that can happen the type is `Option Expr`.
-/

set_option autoImplicit false

namespace RegexAutomaton

/-- A regular expression over arbitrary atoms. -/
inductive Expr where
  | atom (a : Atom)
  | repeated (body : Expr) (q : Quantifier)
  | cat (left right : Expr)
  | alt (left right : Expr)
  deriving DecidableEq

namespace Expr

/-- Tells whether the outermost node is a repetition operator. -/
def isRepeated : Expr → Bool
  | .repeated _ _ => true
  | _ => false

end Expr

end RegexAutomaton
