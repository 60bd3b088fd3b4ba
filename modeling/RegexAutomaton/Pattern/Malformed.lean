/-!
# Malformed patterns

Why a pattern cannot be read.  Each cause has one message.
-/

set_option autoImplicit false

namespace RegexAutomaton.Pattern

/-- A reason why a pattern is not a regular expression. -/
inductive Malformed where
  /-- A repetition operator at the start of a level or of an alternative. -/
  | nothingToRepeat (operator : Char)
  /-- A repetition operator right after what already ends in one. -/
  | repeatedOperator (operator : Char)
  /-- A bar with nothing on one of its sides. -/
  | emptyAlternative
  /-- A backslash between square brackets. -/
  | escapeInBrackets
  /-- Parentheses around nothing. -/
  | emptyGroup
  /-- An opening parenthesis without its closing one. -/
  | unclosedGroup
  /-- A closing parenthesis without its opening one. -/
  | unopenedGroup
  /-- An opening bracket without its closing one. -/
  | unclosedBrackets
  /-- A backslash with nothing to escape. -/
  | trailingEscape
  deriving DecidableEq

/-- The message that reports the cause. -/
def Malformed.message : Malformed → String
  | .nothingToRepeat operator => "operator '" ++ operator.toString ++ "' has nothing to repeat"
  | .repeatedOperator operator => "operator '" ++ operator.toString ++ "' follows another operator"
  | .emptyAlternative => "alternation is missing an operand"
  | .escapeInBrackets => "backslashes are not allowed in square brackets"
  | .emptyGroup => "empty group"
  | .unclosedGroup => "unclosed group"
  | .unopenedGroup => "unopened group"
  | .unclosedBrackets => "unclosed square brackets"
  | .trailingEscape => "trailing backslash"

end RegexAutomaton.Pattern
