import RegexAutomaton.Regex

/-!
# The answer to one question

The program answers one question: does this string match that pattern?  The answer is
a line of text and an exit code, together with what has been recorded on the way.  A
malformed pattern is answered on the error stream and with a code of its own.
-/

set_option autoImplicit false

namespace RegexAutomaton

/-- A pattern and the string to match against it. -/
structure Question where
  pattern : String
  subject : String
  deriving DecidableEq

/-- What a finished program leaves behind. -/
structure Report where
  code : Int
  stdout : String
  stderr : String
  log : List Event
  deriving DecidableEq

/-- The sentence that tells whether the subject matches. -/
def verdict (subject : String) (matched : Bool) : String :=
  "The string '" ++ subject ++ (if matched then "' matches" else "' doesn't match")

namespace Report

/-- The exit code for a subject that matches. -/
def matchCode : Int := 0

/-- The exit code for a subject that does not match. -/
def noMatchCode : Int := 1

/-- The exit code for a malformed pattern. -/
def malformedCode : Int := -1

/-- The complaint about a malformed pattern. -/
def malformedText : String := "Can't parse the regular expression"

/-- A line with its end. -/
def line (text : String) : String := text ++ "\n"

/-- The records that a log of the given severity shows: the one for traces shows all. -/
def logAt (r : Report) : Severity → List Event
  | .trace => r.log
  | .debug => r.log.filter fun e => e.severity = .debug

/-- The exit code as the calling process sees it, which is reduced to one byte. -/
def exitStatus (r : Report) : Nat := (r.code % 256).toNat

end Report

/-- Answers the question. -/
def Question.answer (q : Question) : Report :=
  match Regex.compile q.pattern with
  | .error reason =>
    { code := Report.malformedCode
      stdout := ""
      stderr := Report.line Report.malformedText
      log := [.rejected q.pattern.toList reason] }
  | .ok r =>
    let matched := r.isMatch q.subject
    { code := if matched then Report.matchCode else Report.noMatchCode
      stdout := Report.line (verdict q.subject matched)
      stderr := ""
      log := r.compileLog ++ r.matchLog q.subject }

end RegexAutomaton
