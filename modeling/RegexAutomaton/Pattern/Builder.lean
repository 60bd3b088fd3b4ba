import RegexAutomaton.Token
import RegexAutomaton.Pattern.Anchor
import RegexAutomaton.Pattern.Lexeme

/-!
# Putting out the postfix form of a pattern

The postfix form of a pattern can be put out while the pattern is read, without its tree.  Of a
nesting level there are kept the tokens put out so far, two numbers and the flag of a waiting
caret (`Builder`).

**Items.** Two items are joined only when a third one comes, or when their alternative ends
(`makeRoom`).  Until then an operator, which is put out at once, applies to the latest of them
alone.  The sequence of a group is put out as it is and counts as one item.  Whether an operator
follows another one is told by the last token, which may be one of a group.

**Alternatives.** A bar joins the items of the alternative before it.  The tokens that set the
alternatives of a level against one another are put out together, at its end (`finish`).

What is put out is the postfix form of the tree that `parse` makes of the pattern, and a pattern is
refused for the same reason (`postfixForm_eq_map`).
-/

set_option autoImplicit false

namespace RegexAutomaton.Pattern

/-- What is kept of a nesting level while its postfix form is put out. -/
structure Builder where
  /-- The tokens put out so far. -/
  output : List Token
  /-- How many items of the alternative being read have not been joined. -/
  pending : Nat
  /-- How many alternatives have been closed by a bar. -/
  bars : Nat
  /-- Whether a caret waits for its atom. -/
  caret : Bool
  deriving DecidableEq

namespace Builder

/-- A level of which nothing has been read. -/
def start : Builder := ⟨[], 0, 0, false⟩

/-- Joins the pending items if there is more than one, before another one comes. -/
def makeRoom (b : Builder) : Builder :=
  if 1 < b.pending then { b with output := b.output ++ [.cat], pending := b.pending - 1 } else b

/-- Puts out the tokens of one more item. -/
def pushItem (b : Builder) (tokens : List Token) : Builder :=
  let b := b.makeRoom
  { b with output := b.output ++ tokens, pending := b.pending + 1 }

/-- Puts out an atom, negated by a waiting caret. -/
def pushAtom (b : Builder) (a : Atom) : Builder :=
  { b with caret := false }.pushItem [.atom (a.flipNegation b.caret)]

/-- Lets a caret wait for the next atom. -/
def awaitAtom (b : Builder) : Builder := { b with caret := true }

/-- Puts out a repetition operator, unless there is no item or the last token is one. -/
def pushOperator (b : Builder) (q : Quantifier) : Except Malformed Builder :=
  if b.pending = 0 then .error (.nothingToRepeat q.toChar)
  else if b.output.getLast?.any Token.isQuantifier then .error (.repeatedOperator q.toChar)
  else .ok { b with output := b.output ++ [.quantifier q] }

/-- Closes the alternative being read at a bar, with its pending items joined. -/
def alternate (b : Builder) : Except Malformed Builder :=
  if b.pending = 0 then .error .emptyAlternative
  else .ok { b with
    output := b.output ++ List.replicate (b.pending - 1) .cat
    pending := 0
    bars := b.bars + 1 }

/-- The sequence of a level that has been read to its end. -/
def finish (b : Builder) : Except Malformed (List Token) :=
  if 0 < b.bars ∧ b.pending = 0 then .error .emptyAlternative
  else .ok (b.output ++ (if 1 < b.pending then [.cat] else []) ++ List.replicate b.bars .alt)

end Builder

/-- Puts out the postfix form of the text of one level, given what has been put out before. -/
def postfixLevel (b : Builder) (text : List Char) : Except Malformed (List Token) :=
  match text with
  | [] => b.finish
  | c :: rest =>
    match _ : Lexeme.read c rest with
    | .error e => .error e
    | .ok (.atom a, after) => postfixLevel (b.pushAtom a) after
    | .ok (.caret, after) => postfixLevel b.awaitAtom after
    | .ok (.quantifier q, after) =>
      match b.pushOperator q with
      | .error e => .error e
      | .ok b => postfixLevel b after
    | .ok (.bar, after) =>
      match b.alternate with
      | .error e => .error e
      | .ok b => postfixLevel b after
    | .ok (.group inner, after) =>
      match postfixLevel .start inner with
      | .error e => .error e
      | .ok tokens =>
        if tokens.isEmpty then .error .emptyGroup
        else postfixLevel (b.pushItem tokens) after
termination_by text.length
decreasing_by
  all_goals
    have shorter := Lexeme.read_length ‹Lexeme.read c rest = _›
    simp only [Lexeme.inner, List.length_nil, List.length_cons] at shorter ⊢
    omega

/-- The postfix form of a text that is read as it stands, without regard to anchors. -/
def postfixWhole (text : List Char) : Except Malformed (List Token) := postfixLevel .start text

/-- The postfix form of a pattern. -/
def postfixForm (text : List Char) : Except Malformed (List Token) :=
  if endsInEscape text then .error .trailingEscape else postfixWhole (anchored text)

end RegexAutomaton.Pattern
