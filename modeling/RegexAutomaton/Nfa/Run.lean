import RegexAutomaton.Nfa.Frontier

/-!
# Running an automaton

An automaton is run by stepping its frontier through the subject, one character at a
time.  The subject matches if acceptance is reached when it has been consumed whole.

A run gives up before a character as soon as no state is left to consume it.  A trace
records the run: the number of states after each character consumed, and where the run
gave up if it did.
-/

set_option autoImplicit false

namespace RegexAutomaton

/-- One record of a run.  Positions count the characters of the subject from zero. -/
inductive Progress where
  /-- The character at the position was consumed, and this many states are active. -/
  | advanced (c : Char) (position active : Nat)
  /-- No state was left to consume the character at the position. -/
  | died (position : Nat)
  deriving DecidableEq

namespace Nfa

/-- Tells whether the rest of a subject is accepted from the frontier. -/
def runFrom (nfa : Nfa) (frontier : Frontier nfa.states.size) : List Char → Bool
  | [] => frontier.accepting
  | c :: rest =>
    if frontier.active.isEmpty then false else nfa.runFrom (nfa.step frontier c) rest

/-- Tells whether the automaton accepts the subject. -/
def run (nfa : Nfa) (subject : List Char) : Bool := nfa.runFrom nfa.initial subject

/-- The records of running the rest of a subject from the frontier. -/
def traceFrom (nfa : Nfa) (frontier : Frontier nfa.states.size) (position : Nat) :
    List Char → List Progress
  | [] => []
  | c :: rest =>
    if frontier.active.isEmpty then [.died position]
    else
      let next := nfa.step frontier c
      .advanced c position next.active.length :: nfa.traceFrom next (position + 1) rest

/-- The records of running the automaton over the subject. -/
def trace (nfa : Nfa) (subject : List Char) : List Progress :=
  nfa.traceFrom nfa.initial 0 subject

end Nfa

end RegexAutomaton
