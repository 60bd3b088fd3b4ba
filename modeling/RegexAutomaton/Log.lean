import RegexAutomaton.Nfa.Run
import RegexAutomaton.Pattern.Malformed
import RegexAutomaton.Text.Quoted
import RegexAutomaton.Token

/-!
# Log records

What the library reports about its work: how a pattern was read and how large its
automaton is, that a pattern was rejected, and, in more detail than usually wanted,
how a run went.  A record is written on one line, after its severity.
-/

set_option autoImplicit false

namespace RegexAutomaton

/-- How detailed a record is. -/
inductive Severity where
  | debug
  | trace
  deriving DecidableEq

/-- The severity as written in front of a record. -/
def Severity.text : Severity → List Char
  | .debug => "DEBUG".toList
  | .trace => "TRACE".toList

/-- Something worth recording. -/
inductive Event where
  /-- The pattern was read as a postfix sequence. -/
  | postfixForm (pattern : List Char) (tokens : List Token)
  /-- The pattern's automaton has this many states. -/
  | compiled (pattern : List Char) (states : Nat)
  /-- The pattern is malformed. -/
  | rejected (pattern : List Char) (reason : Pattern.Malformed)
  /-- A run has got this far. -/
  | progress (p : Progress)
  deriving DecidableEq

/-- A step of a run as written in the log. -/
def Progress.text : Progress → List Char
  | .advanced c position active =>
    "after ".toList ++ Text.quoteChar c ++ " at ".toList ++ position.repr.toList ++
      ": ".toList ++ active.repr.toList ++ " active states".toList
  | .died position => "frontier died before position ".toList ++ position.repr.toList

namespace Event

/-- Runs are recorded in more detail than everything else. -/
def severity : Event → Severity
  | .progress _ => .trace
  | _ => .debug

/-- The record without its severity. -/
def text : Event → List Char
  | .postfixForm pattern tokens =>
    "postfix form of ".toList ++ Text.quote pattern ++ ": ".toList ++ Token.textOfList tokens
  | .compiled pattern states =>
    "compiled ".toList ++ Text.quote pattern ++ " into ".toList ++ states.repr.toList ++
      " states".toList
  | .rejected pattern reason =>
    "rejected ".toList ++ Text.quote pattern ++ ": ".toList ++ reason.message.toList
  | .progress p => p.text

/-- The record as a line of the log. -/
def line (e : Event) : String := .ofList (e.severity.text ++ ' ' :: e.text)

end Event

end RegexAutomaton
