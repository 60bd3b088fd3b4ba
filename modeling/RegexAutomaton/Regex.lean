import RegexAutomaton.Log
import RegexAutomaton.Nfa.Assembly
import RegexAutomaton.Pattern.Parse

/-!
# Compiled patterns

A pattern is compiled once (`Regex.compile`) and can then be applied to any number of
subjects (`Regex.isMatch`).  Compiling fails exactly when the pattern is malformed.

A compiled pattern carries the proof that its expression is the one the pattern
denotes, and that its automaton is the one of that expression.
-/

set_option autoImplicit false

namespace RegexAutomaton

/-- A pattern with its expression and its automaton. -/
structure Regex where
  source : String
  expr : Option Expr
  nfa : Nfa
  parse_source : Pattern.parse source.toList = .ok expr
  nfa_eq : nfa = Nfa.ofExpr expr

namespace Regex

/-- Compiles a pattern, or tells why it is malformed. -/
def compile (pattern : String) : Except Pattern.Malformed Regex :=
  match parsed : Pattern.parse pattern.toList with
  | .error reason => .error reason
  | .ok expr => .ok ⟨pattern, expr, .ofExpr expr, parsed, rfl⟩

/-- The postfix form of the pattern. -/
def tokens (r : Regex) : List Token := Expr.postorderOf r.expr

/-- Tells whether the subject matches the pattern. -/
def isMatch (r : Regex) (subject : String) : Bool := r.nfa.run subject.toList

/-- What is recorded when the pattern has been compiled. -/
def compileLog (r : Regex) : List Event :=
  [.postfixForm r.source.toList r.tokens, .compiled r.source.toList r.nfa.states.size]

/-- What is recorded while the pattern is applied to a subject. -/
def matchLog (r : Regex) (subject : String) : List Event :=
  (r.nfa.trace subject.toList).map .progress

theorem compile_eq_error_iff {pattern : String} {reason : Pattern.Malformed} :
    compile pattern = .error reason ↔ Pattern.parse pattern.toList = .error reason := by
  unfold compile
  split <;> simp_all

theorem source_of_compile {pattern : String} {r : Regex} (h : compile pattern = .ok r) :
    r.source = pattern := by
  unfold compile at h
  split at h
  · cases h
  · cases h
    rfl

/-- **The automaton of a compiled pattern is what its postfix form builds.** -/
theorem ofPostfix_tokens (r : Regex) : Nfa.ofPostfix r.tokens = .ok r.nfa := by
  rw [r.nfa_eq]
  exact Nfa.ofPostfix_postorderOf r.expr

end Regex

/-- Tells whether a subject matches a pattern, compiling the pattern for this one use. -/
def isMatch (pattern subject : String) : Except Pattern.Malformed Bool :=
  match Regex.compile pattern with
  | .error reason => .error reason
  | .ok r => .ok (r.isMatch subject)

/-- **Matching is reading the pattern and running its automaton.** -/
theorem isMatch_eq_map (pattern subject : String) :
    isMatch pattern subject =
      (Pattern.parse pattern.toList).map fun e => (Nfa.ofExpr e).run subject.toList := by
  unfold isMatch
  cases compiled : Regex.compile pattern with
  | error reason =>
    rw [Regex.compile_eq_error_iff.mp compiled]
    rfl
  | ok r =>
    rw [← Regex.source_of_compile compiled, r.parse_source]
    exact congrArg (fun nfa => Except.ok (nfa.run subject.toList)) r.nfa_eq

end RegexAutomaton
