import RegexAutomaton.Pattern.Bracket
import RegexAutomaton.Proofs.Language
import RegexAutomaton.Token

/-!
# The grammar of patterns

The trees that patterns are written for.  An alternation is one or more branches, a
branch one or more items, and an item is a base with at most one repetition operator.
A base tests one character, and may be negated, or is a group around an alternation.

A tree has three readings: its postfix sequence (`Alternation.tokens`), its expression
(`Alternation.expr`) and its language (`Alternation.language`).  Each is defined on the
tree alone.  They agree: the postfix sequence is that of the expression
(`Alternation.postorder_expr`), and the language is that of the expression
(`Alternation.language_expr`).

An operator may not be applied to a group that itself ends in one.  The condition is
stated once for any requirement on the bases of operators
(`Alternation.RepeatsOnly`), and such a group is told by its shape or by its postfix
sequence (`Base.operatorEnded_iff`).
-/

set_option autoImplicit false

namespace RegexAutomaton.Grammar

open Computability

/-- Bracket contents, which have neither a closing bracket nor a backslash in them. -/
structure BracketText where
  text : List Char
  plain : ∀ c ∈ text, c ≠ ']' ∧ c ≠ '\\'

mutual
/-- Branches, any one of which may match. -/
inductive Alternation where
  | one (branch : Branch)
  | more (branch : Branch) (others : Alternation)

/-- Items that match one after the other. -/
inductive Branch where
  | one (item : Item)
  | snoc (before : Branch) (item : Item)

/-- A base with at most one repetition operator. -/
inductive Item where
  | once (base : Base)
  | repeated (base : Base) (q : Quantifier)

/-- A test on one character, maybe negated, or a group. -/
inductive Base where
  | char (c : Char) (negate : Bool)
  | any (negate : Bool)
  | brackets (contents : BracketText) (negate : Bool)
  | group (inner : Alternation)
end

@[induction_eliminator]
theorem Alternation.induction {motive : Alternation → Prop}
    (one : ∀ branch, motive (.one branch))
    (more : ∀ branch others, motive others → motive (.more branch others)) :
    ∀ tree, motive tree
  | .one branch => one branch
  | .more branch others => more branch others (Alternation.induction one more others)

@[induction_eliminator]
theorem Branch.induction {motive : Branch → Prop} (one : ∀ item, motive (.one item))
    (snoc : ∀ before item, motive before → motive (.snoc before item)) :
    ∀ branch, motive branch
  | .one item => one item
  | .snoc before item => snoc before item (Branch.induction one snoc before)

/-- The class of bracket contents, its own negation inverted if `negate` is set. -/
def BracketText.atom (contents : BracketText) (negate : Bool) : Atom :=
  (Atom.within (Pattern.Bracket.toClass contents.text)).flipNegation negate

/-- The branches from left to right. -/
def Alternation.branches : Alternation → List Branch
  | .one branch => [branch]
  | .more branch others => branch :: others.branches

/-! ## Postfix sequences -/

/-- One less than the number of branches. -/
def Alternation.bars : Alternation → Nat
  | .one _ => 0
  | .more _ others => others.bars + 1

mutual
/-- The sequences of the branches, one after the other. -/
def Alternation.operands : Alternation → List Token
  | .one branch => branch.tokens
  | .more branch others => branch.tokens ++ others.operands

/-- From the second item on, each item is joined to those before it at once. -/
def Branch.tokens : Branch → List Token
  | .one item => item.tokens
  | .snoc before item => before.tokens ++ item.tokens ++ [.cat]

def Item.tokens : Item → List Token
  | .once base => base.tokens
  | .repeated base q => base.tokens ++ [.quantifier q]

def Base.tokens : Base → List Token
  | .char c negate => [.atom (.char c negate)]
  | .any negate => [.atom (.any negate)]
  | .brackets contents negate => [.atom (contents.atom negate)]
  | .group inner => inner.operands ++ List.replicate inner.bars .alt
end

/-- The sequences of the branches, and at the end an alternation for each bar. -/
def Alternation.tokens (tree : Alternation) : List Token :=
  tree.operands ++ List.replicate tree.bars .alt

/-! ## Expressions -/

mutual
/-- The first branch is set against all the others. -/
def Alternation.expr : Alternation → Expr
  | .one branch => branch.expr
  | .more branch others => .alt branch.expr others.expr

def Branch.expr : Branch → Expr
  | .one item => item.expr
  | .snoc before item => .cat before.expr item.expr

def Item.expr : Item → Expr
  | .once base => base.expr
  | .repeated base q => .repeated base.expr q

def Base.expr : Base → Expr
  | .char c negate => .atom (.char c negate)
  | .any negate => .atom (.any negate)
  | .brackets contents negate => .atom (contents.atom negate)
  | .group inner => inner.expr
end

mutual
/-- **The postfix sequence of a tree is the postorder of its expression.** -/
theorem Alternation.postorder_expr : ∀ tree : Alternation, tree.expr.postorder = tree.tokens
  | .one branch => by
      rw [Alternation.expr, branch.postorder_expr, Alternation.tokens, Alternation.operands,
        Alternation.bars, List.replicate_zero, List.append_nil]
  | .more branch others => by
      rw [Alternation.expr, Expr.postorder_alt, branch.postorder_expr, others.postorder_expr,
        Alternation.tokens, Alternation.tokens, Alternation.operands, Alternation.bars,
        List.replicate_succ', List.append_assoc, List.append_assoc, List.append_assoc]

theorem Branch.postorder_expr : ∀ branch : Branch, branch.expr.postorder = branch.tokens
  | .one item => by rw [Branch.expr, item.postorder_expr, Branch.tokens]
  | .snoc before item => by
      rw [Branch.expr, Expr.postorder_cat, before.postorder_expr, item.postorder_expr,
        Branch.tokens]

theorem Item.postorder_expr : ∀ item : Item, item.expr.postorder = item.tokens
  | .once base => by rw [Item.expr, base.postorder_expr, Item.tokens]
  | .repeated base q => by
      rw [Item.expr, Expr.postorder_repeated, base.postorder_expr, Item.tokens]

theorem Base.postorder_expr : ∀ base : Base, base.expr.postorder = base.tokens
  | .char _ _ => rfl
  | .any _ => rfl
  | .brackets _ _ => rfl
  | .group inner => by rw [Base.expr, inner.postorder_expr, Alternation.tokens, Base.tokens]
end

/-! ## Languages -/

mutual
/-- A word of any one of the branches. -/
def Alternation.language : Alternation → Language Char
  | .one branch => branch.language
  | .more branch others => branch.language + others.language

/-- A word of each item, in order. -/
def Branch.language : Branch → Language Char
  | .one item => item.language
  | .snoc before item => before.language * item.language

def Item.language : Item → Language Char
  | .once base => base.language
  | .repeated base q => q.language base.language

def Base.language : Base → Language Char
  | .char c negate => (Atom.char c negate).language
  | .any negate => (Atom.any negate).language
  | .brackets contents negate => (contents.atom negate).language
  | .group inner => inner.language
end

mutual
/-- **The language of a tree is that of its expression.** -/
theorem Alternation.language_expr : ∀ tree : Alternation, tree.expr.language = tree.language
  | .one branch => by rw [Alternation.expr, branch.language_expr, Alternation.language]
  | .more branch others => by
      rw [Alternation.expr, Expr.language, branch.language_expr, others.language_expr,
        Alternation.language]

theorem Branch.language_expr : ∀ branch : Branch, branch.expr.language = branch.language
  | .one item => by rw [Branch.expr, item.language_expr, Branch.language]
  | .snoc before item => by
      rw [Branch.expr, Expr.language, before.language_expr, item.language_expr, Branch.language]

theorem Item.language_expr : ∀ item : Item, item.expr.language = item.language
  | .once base => by rw [Item.expr, base.language_expr, Item.language]
  | .repeated base q => by rw [Item.expr, Expr.language, base.language_expr, Item.language]

theorem Base.language_expr : ∀ base : Base, base.expr.language = base.language
  | .char _ _ => rfl
  | .any _ => rfl
  | .brackets _ _ => rfl
  | .group inner => by rw [Base.expr, inner.language_expr, Base.language]
end

/-! ## What operators may be applied to -/

mutual
/-- Every base that an operator is applied to, at any depth, meets the requirement. -/
def Alternation.RepeatsOnly (allowed : Base → Prop) : Alternation → Prop
  | .one branch => branch.RepeatsOnly allowed
  | .more branch others => branch.RepeatsOnly allowed ∧ others.RepeatsOnly allowed

def Branch.RepeatsOnly (allowed : Base → Prop) : Branch → Prop
  | .one item => item.RepeatsOnly allowed
  | .snoc before item => before.RepeatsOnly allowed ∧ item.RepeatsOnly allowed

def Item.RepeatsOnly (allowed : Base → Prop) : Item → Prop
  | .once base => base.RepeatsOnly allowed
  | .repeated base _ => allowed base ∧ base.RepeatsOnly allowed

def Base.RepeatsOnly (allowed : Base → Prop) : Base → Prop
  | .group inner => inner.RepeatsOnly allowed
  | _ => True
end

mutual
/-- A single branch of a single item that ends in an operator. -/
def Alternation.OperatorEnded : Alternation → Prop
  | .one branch => branch.OperatorEnded
  | .more _ _ => False

def Branch.OperatorEnded : Branch → Prop
  | .one item => item.OperatorEnded
  | .snoc _ _ => False

/-- An item that carries an operator, or whose base is a group that ends in one. -/
def Item.OperatorEnded : Item → Prop
  | .once base => base.OperatorEnded
  | .repeated _ _ => True

/-- A group of a single branch of a single item that ends in an operator. -/
def Base.OperatorEnded : Base → Prop
  | .group inner => inner.OperatorEnded
  | _ => False
end

mutual
theorem Alternation.isRepeated_expr :
    ∀ tree : Alternation, tree.expr.isRepeated = true ↔ tree.OperatorEnded
  | .one branch => by rw [Alternation.expr, branch.isRepeated_expr, Alternation.OperatorEnded]
  | .more _ _ => by simp [Alternation.expr, Expr.isRepeated, Alternation.OperatorEnded]

theorem Branch.isRepeated_expr :
    ∀ branch : Branch, branch.expr.isRepeated = true ↔ branch.OperatorEnded
  | .one item => by rw [Branch.expr, item.isRepeated_expr, Branch.OperatorEnded]
  | .snoc _ _ => by simp [Branch.expr, Expr.isRepeated, Branch.OperatorEnded]

theorem Item.isRepeated_expr : ∀ item : Item, item.expr.isRepeated = true ↔ item.OperatorEnded
  | .once base => by rw [Item.expr, base.isRepeated_expr, Item.OperatorEnded]
  | .repeated _ _ => by simp [Item.expr, Expr.isRepeated, Item.OperatorEnded]

theorem Base.isRepeated_expr : ∀ base : Base, base.expr.isRepeated = true ↔ base.OperatorEnded
  | .char _ _ => by simp [Base.expr, Expr.isRepeated, Base.OperatorEnded]
  | .any _ => by simp [Base.expr, Expr.isRepeated, Base.OperatorEnded]
  | .brackets _ _ => by simp [Base.expr, Expr.isRepeated, Base.OperatorEnded]
  | .group inner => by rw [Base.expr, inner.isRepeated_expr, Base.OperatorEnded]
end

/-- The last token of a sequence is a repetition operator. -/
def EndsInOperator (tokens : List Token) : Prop := ∃ q, tokens.getLast? = some (.quantifier q)

/-- The postfix sequence of a tree ends in an operator exactly when the tree is a repetition. -/
theorem endsInOperator_postorder_iff {e : Expr} :
    EndsInOperator e.postorder ↔ e.isRepeated = true := by
  rw [← Expr.isQuantifier_getLast_postorder, EndsInOperator,
    List.getLast?_eq_some_getLast e.postorder_ne_nil]
  cases e.postorder.getLast e.postorder_ne_nil <;> simp [Token.isQuantifier]

/-- The trees that patterns can be written for: no operator is applied to a base that ends in
one. -/
def Alternation.Admissible (tree : Alternation) : Prop :=
  tree.RepeatsOnly fun base => ¬base.OperatorEnded

end RegexAutomaton.Grammar
