import RegexAutomaton.Atom

/-!
# Nondeterministic automata

An automaton is a table of states and an edge to start from.  A state either tests
one character and has one edge to follow if the character is accepted, or it splits
into two edges that are followed without consuming anything.  Acceptance is no state
but a target that an edge may have.

While an automaton is being built some edges have no target yet.  A finished one is
wired (`Wired`): every edge accepts or leads to a state of the table.
-/

set_option autoImplicit false

namespace RegexAutomaton

/-- Where an edge leads. -/
inductive Edge where
  /-- Nowhere yet. -/
  | dangling
  /-- To the state with this number. -/
  | state (i : Nat)
  /-- To acceptance. -/
  | accept
  deriving DecidableEq

/-- A state with its outgoing edges. -/
inductive State where
  /-- Consumes a character that the atom accepts. -/
  | test (a : Atom) (out : Edge)
  /-- Consumes nothing and continues along both edges. -/
  | split (first second : Edge)
  deriving DecidableEq

/-- A table of states with the edge to start from. -/
structure Nfa where
  states : Array State
  start : Edge
  deriving DecidableEq

/-! ## Wiring -/

/-- The edge has a target, and the target exists in a table of `size` states. -/
def Edge.Wired (size : Nat) : Edge → Prop
  | .dangling => False
  | .state i => i < size
  | .accept => True

instance (size : Nat) : DecidablePred (Edge.Wired size)
  | .dangling => inferInstanceAs (Decidable False)
  | .state i => inferInstanceAs (Decidable (i < size))
  | .accept => inferInstanceAs (Decidable True)

/-- The edges that leave the state, in order. -/
def State.edges : State → List Edge
  | .test _ out => [out]
  | .split first second => [first, second]

/-- Every edge of the automaton has a target within its table. -/
def Nfa.Wired (nfa : Nfa) : Prop :=
  nfa.start.Wired nfa.states.size ∧
    ∀ s ∈ nfa.states, ∀ e ∈ s.edges, e.Wired nfa.states.size

instance (nfa : Nfa) : Decidable nfa.Wired :=
  inferInstanceAs (Decidable (_ ∧ _))

/-! ## Printing -/

/-- The target as printed. -/
def Edge.text : Edge → List Char
  | .dangling => ['?']
  | .state i => i.repr.toList
  | .accept => "Match".toList

/-- The state as printed, with what it leads to. -/
def State.text : State → List Char
  | .test a out => a.text ++ " -> ".toList ++ out.text
  | .split first second => "Split -> ".toList ++ first.text ++ ", ".toList ++ second.text

/-- One line for a numbered state. -/
def State.line (s : State) (i : Nat) : List Char :=
  i.repr.toList ++ ": ".toList ++ s.text ++ ['\n']

/-- The automaton as printed: a line for the start edge and one for each state. -/
def Nfa.text (nfa : Nfa) : List Char :=
  "start: ".toList ++ nfa.start.text ++ ['\n'] ++
    nfa.states.toList.zipIdx.flatMap fun (s, i) => s.line i

end RegexAutomaton
