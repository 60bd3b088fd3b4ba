import RegexAutomaton.Expr

/-!
# Postfix sequences

A regular expression can be written without parentheses by putting each operator
after its operands.  The entries of such a sequence are tokens.  `Expr.postorder`
writes a tree, left operand first; the sequence of `none` is empty.

A sequence is printed with its tokens joined by single spaces (`Token.textOfList`).
Characters are printed raw, so a token's text may itself contain a space or an
angle bracket.
-/

set_option autoImplicit false

namespace RegexAutomaton

/-- One entry of a postfix sequence. -/
inductive Token where
  | atom (a : Atom)
  /-- Repeats the operand before it. -/
  | quantifier (q : Quantifier)
  /-- Joins the two operands before it. -/
  | cat
  /-- Chooses between the two operands before it. -/
  | alt
  deriving DecidableEq

namespace Token

/-- Tells whether the token is a repetition operator. -/
def isQuantifier : Token → Bool
  | .quantifier _ => true
  | _ => false

/-- Equality up to the negation of character classes, which is not compared. -/
def alike : Token → Token → Bool
  | .atom a, .atom b => a.alike b
  | s, t => decide (s = t)

/-- The token as printed. -/
def text : Token → List Char
  | .atom a => a.text
  | .quantifier q => "Operator<".toList ++ [q.toChar, '>']
  | .cat => "Concatenation".toList
  | .alt => "Disjunction".toList

/-- A sequence as printed: the tokens' texts with one space between neighbours. -/
def textOfList : List Token → List Char
  | [] => []
  | [t] => t.text
  | t :: rest => t.text ++ ' ' :: textOfList rest

end Token

namespace Expr

/-- Writes the postfix sequence of a tree in front of a sequence. -/
def postorderOnto (rest : List Token) : Expr → List Token
  | .atom a => .atom a :: rest
  | .repeated body q => body.postorderOnto (.quantifier q :: rest)
  | .cat left right => left.postorderOnto (right.postorderOnto (.cat :: rest))
  | .alt left right => left.postorderOnto (right.postorderOnto (.alt :: rest))

/-- The postfix sequence of a tree. -/
def postorder (e : Expr) : List Token := e.postorderOnto []

theorem postorderOnto_append (e : Expr) (front rest : List Token) :
    e.postorderOnto (front ++ rest) = e.postorderOnto front ++ rest := by
  induction e generalizing front with
  | atom a => rfl
  | repeated body q ih => exact ih (.quantifier q :: front)
  | cat left right ihl ihr =>
    rw [postorderOnto, ← List.cons_append, ihr, ihl]
    rfl
  | alt left right ihl ihr =>
    rw [postorderOnto, ← List.cons_append, ihr, ihl]
    rfl

theorem postorderOnto_eq_append (e : Expr) (rest : List Token) :
    e.postorderOnto rest = e.postorder ++ rest :=
  postorderOnto_append e [] rest

@[simp] theorem postorder_atom (a : Atom) : (atom a).postorder = [.atom a] := rfl

@[simp] theorem postorder_repeated (body : Expr) (q : Quantifier) :
    (repeated body q).postorder = body.postorder ++ [.quantifier q] :=
  postorderOnto_eq_append body _

@[simp] theorem postorder_cat (left right : Expr) :
    (cat left right).postorder = left.postorder ++ right.postorder ++ [.cat] := by
  rw [postorder, postorderOnto, postorderOnto_eq_append left, postorderOnto_eq_append right,
    List.append_assoc]

@[simp] theorem postorder_alt (left right : Expr) :
    (alt left right).postorder = left.postorder ++ right.postorder ++ [.alt] := by
  rw [postorder, postorderOnto, postorderOnto_eq_append left, postorderOnto_eq_append right,
    List.append_assoc]

/-- The postfix sequence of a tree, empty if there is no tree. -/
def postorderOf : Option Expr → List Token
  | none => []
  | some e => e.postorder

theorem postorder_ne_nil (e : Expr) : e.postorder ≠ [] := by
  cases e <;> simp

theorem postorderOf_eq_nil_iff {e : Option Expr} : postorderOf e = [] ↔ e = none := by
  cases e with
  | none => simp [postorderOf]
  | some e => simp [postorderOf, postorder_ne_nil]

/-- A tree is a repetition exactly when its sequence ends in a repetition operator. -/
theorem isQuantifier_getLast_postorder (e : Expr) :
    (e.postorder.getLast (postorder_ne_nil e)).isQuantifier = e.isRepeated := by
  cases e <;> simp [isRepeated, Token.isQuantifier]

end Expr

end RegexAutomaton
