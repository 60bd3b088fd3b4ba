import RegexAutomaton.Pattern.Anchor
import RegexAutomaton.Pattern.Level
import RegexAutomaton.Pattern.Lexeme

/-!
# Reading a pattern

`parse` turns the text of a pattern into the regular expression that has to match
the whole subject, or reports why it cannot.  The anchors are made explicit first
(`anchored`), then the text is read level by level (`parseLevel`).

Anchors mean something only at the two ends of the whole pattern: within a group,
and everywhere else, a caret negates and a dollar sign is an ordinary character.

Of several faults the one reported is the first of these: a backslash at the very
end that escapes nothing, then whatever comes first from left to right, where a
group that is never closed counts as a fault of its opening parenthesis.
-/

set_option autoImplicit false

namespace RegexAutomaton.Pattern

/-- Reads the text of one level, given what has been read of it before. -/
def parseLevel (level : Level) (text : List Char) : Except Malformed (Option Expr) :=
  match text with
  | [] => level.finish
  | c :: rest =>
    match _ : Lexeme.read c rest with
    | .error e => .error e
    | .ok (.atom a, after) => parseLevel (level.pushAtom a) after
    | .ok (.caret, after) => parseLevel level.awaitAtom after
    | .ok (.quantifier q, after) =>
      match level.repeatLast q with
      | .error e => .error e
      | .ok level => parseLevel level after
    | .ok (.bar, after) =>
      match level.closeBranch with
      | .error e => .error e
      | .ok level => parseLevel level after
    | .ok (.group inner, after) =>
      match parseLevel .start inner with
      | .error e => .error e
      | .ok none => .error .emptyGroup
      | .ok (some e) => parseLevel (level.pushGroup e) after
termination_by text.length
decreasing_by
  all_goals
    have shorter := Lexeme.read_length ‹Lexeme.read c rest = _›
    simp only [Lexeme.inner, List.length_nil, List.length_cons] at shorter ⊢
    omega

/-- The expression of a text that is read as it stands, without regard to anchors. -/
def parseWhole (text : List Char) : Except Malformed (Option Expr) := parseLevel .start text

/-- The expression of a pattern: what it says about the whole subject. -/
def parse (text : List Char) : Except Malformed (Option Expr) :=
  if endsInEscape text then .error .trailingEscape else parseWhole (anchored text)

end RegexAutomaton.Pattern
