import RegexAutomaton.Report

/-!
# The command line

The program takes two values, a pattern and a string to match, and two options that
ask for information.  Its arguments are byte sequences, which need not be text.

A value may start with a hyphen, so an argument is an option only if it is one of the
known options, and otherwise a value as long as one is still wanted (`role`).  From
the first `--` on, which is itself dropped, every argument is a value.

A value is decoded when the argument after it is taken in, or at the end.  This decides
which of several faults is reported: a value that is not text is reported before a
request for information that follows it, but after an argument that nothing is known
about.
-/

set_option autoImplicit false

namespace RegexAutomaton.CommandLine

/-- One argument, as it is handed to the program. -/
abbrev Argument := List UInt8

/-- Why a command line asks no question. -/
inductive Refusal where
  /-- It asks for help instead. -/
  | help
  /-- It asks for the version instead. -/
  | version
  /-- It has fewer than two values. -/
  | missingArgument
  /-- It has more than two values, or an option that does not exist. -/
  | unknownArgument
  /-- A value is not text. -/
  | invalidText
  /-- An option that takes no value has one attached. -/
  | unexpectedValue
  deriving DecidableEq

/-- The exit code: a request for information is no failure. -/
def Refusal.exitCode : Refusal → Int
  | .help | .version => 0
  | _ => 2

/-- The text of an argument, if it is one. -/
def Argument.text? (arg : Argument) : Option String := String.fromUTF8? ⟨arg.toArray⟩

/-- The bytes of a text. -/
def Argument.ofText (text : String) : Argument := text.toUTF8.data.toList

/-! ## The roles of arguments -/

/-- What an argument is for. -/
inductive Role where
  /-- From here on every argument is a value. -/
  | separator
  /-- The pattern or the string to match. -/
  | value
  /-- An option that ends the reading with its answer. -/
  | request (answer : Refusal)
  /-- Nothing that can be used here. -/
  | fault (reason : Refusal)
  deriving DecidableEq

/-- The byte of a hyphen. -/
def hyphen : UInt8 := '-'.toUInt8

/-- The role of an argument that may as well be a value as long as one is wanted. -/
def Role.valueIf (wanted : Bool) : Role := if wanted then .value else .fault .unknownArgument

/-- The role of `--` with what follows it: a name, and maybe a value after an equals sign.
A name that is not text is never taken for a value. -/
def longRole (wanted : Bool) (body : Argument) : Role :=
  let name : Argument := body.takeWhile (· != '='.toUInt8)
  let attached := body.contains '='.toUInt8
  if body.isEmpty then .separator
  else if name = Argument.ofText "help" then
    if attached then .fault .unexpectedValue else .request .help
  else if name = Argument.ofText "version" then
    if attached then .fault .unexpectedValue else .request .version
  else if name.text?.isNone then .fault .unknownArgument
  else .valueIf wanted

/-- The option that a single letter names. -/
def shortOption? (letter : UInt8) : Option Refusal :=
  if letter = 'h'.toUInt8 then some .help
  else if letter = 'V'.toUInt8 then some .version
  else none

/-- The role of one hyphen with the letters that follow it.  They are a value if one is
wanted and not all of them name options; otherwise the first letter decides. -/
def shortRole (wanted : Bool) (first : UInt8) (others : Argument) : Role :=
  if wanted && !((first :: others).all fun letter => (shortOption? letter).isSome) then .value
  else
    match shortOption? first with
    | some answer => .request answer
    | none => .fault .unknownArgument

/-- The role of an argument, where `wanted` tells whether a value is still wanted.  A
single hyphen is no option. -/
def role (wanted : Bool) : Argument → Role
  | first :: second :: others =>
    if first != hyphen then .value
    else if second = hyphen then longRole wanted others
    else shortRole wanted second others
  | _ => .value

/-! ## Reading a command line -/

/-- The values taken in so far, the latest not yet decoded. -/
inductive Taken where
  | nothing
  | one (pattern : Argument)
  | two (pattern : String) (subject : Argument)

namespace Taken

/-- Tells whether another value is wanted. -/
def wantsValue : Taken → Bool
  | .two _ _ => false
  | _ => true

/-- Tells whether the latest value is text, or has not been taken in. -/
def decodes : Taken → Bool
  | .nothing => true
  | .one pattern => pattern.text?.isSome
  | .two _ subject => subject.text?.isSome

/-- Takes in one more value. -/
def add (taken : Taken) (value : Argument) : Except Refusal Taken :=
  match taken with
  | .nothing => .ok (.one value)
  | .one pattern =>
    match pattern.text? with
    | none => .error .invalidText
    | some pattern => .ok (.two pattern value)
  | .two _ _ => .error .unknownArgument

/-- The question, once all arguments have been taken in. -/
def finish : Taken → Except Refusal Question
  | .nothing => .error .missingArgument
  | .one pattern => .error (if pattern.text?.isSome then .missingArgument else .invalidText)
  | .two pattern subject =>
    match subject.text? with
    | none => .error .invalidText
    | some subject => .ok ⟨pattern, subject⟩

end Taken

/-- Reads the remaining arguments, all of them as values if `separated`. -/
def parseFrom (taken : Taken) (separated : Bool) : List Argument → Except Refusal Question
  | [] => taken.finish
  | arg :: rest =>
    match if separated then .value else role taken.wantsValue arg with
    | .separator => parseFrom taken true rest
    | .value =>
      match taken.add arg with
      | .error reason => .error reason
      | .ok taken => parseFrom taken separated rest
    | .request answer => .error (if taken.decodes then answer else .invalidText)
    | .fault reason => .error reason

/-- The question that the arguments ask.  The name of the program is not among them. -/
def parse (args : List Argument) : Except Refusal Question := parseFrom .nothing false args

/-! ## The whole program -/

/-- The name and version of the program. -/
def versionText : String := "postfix-regex 0.1.0"

/-- The values that the program takes. -/
def usageText : String := "Usage: postfix-regex <PATTERN> <STRING>"

/-- How to use the program. -/
def helpText : String :=
  "Match a string against a POSIX-like regular expression\n\n" ++
  usageText ++ "\n\n" ++
  "Arguments:\n" ++
  "  <PATTERN>  A POSIX-like regular expression\n" ++
  "  <STRING>   A string to match\n\n" ++
  "Options:\n" ++
  "  -h, --help     Print help\n" ++
  "  -V, --version  Print version"

/-- What is said about a refusal: the information asked for, or the fault. -/
def Refusal.message : Refusal → String
  | .help => helpText
  | .version => versionText
  | .missingArgument => "error: both <PATTERN> and <STRING> are required\n\n" ++ usageText
  | .unknownArgument => "error: unexpected argument found"
  | .invalidText => "error: invalid UTF-8 was detected in one or more arguments"
  | .unexpectedValue => "error: unexpected value for an option that takes none"

/-- Information goes to the output, a fault to the error stream. -/
def Refusal.report (r : Refusal) : Report :=
  if r.exitCode = 0 then ⟨r.exitCode, Report.line r.message, "", []⟩
  else ⟨r.exitCode, "", Report.line r.message, []⟩

/-- Runs the program on its arguments. -/
def run (args : List Argument) : Report :=
  match parse args with
  | .ok question => question.answer
  | .error refusal => refusal.report

end RegexAutomaton.CommandLine
