import RegexAutomaton.Nfa.Basic
import RegexAutomaton.Quantifier

/-!
# Pieces of an automaton under construction

An automaton is built from pieces, one for each subexpression.  All pieces share one
growing table of states.  A piece knows the state to enter it by and the edges that
leave it, which dangle until it is known what follows (`Fragment`).

Combining pieces adds at most one split and wires edges that dangled.  No state is
ever removed or renumbered, so the table lists the states in the order in which their
operators and atoms are met.
-/

set_option autoImplicit false

namespace RegexAutomaton

/-- Which of the edges of a state is meant. -/
inductive Slot where
  /-- The only edge of a test, or the first one of a split. -/
  | first
  /-- The second edge of a split. -/
  | second
  deriving DecidableEq

/-- An edge, given by the state that it leaves. -/
structure Arrow where
  state : Nat
  slot : Slot
  deriving DecidableEq

/-- The state with one edge led to a new target.  A test has no second edge. -/
def State.setEdge (target : Edge) : State → Slot → State
  | .test a _, .first => .test a target
  | .test a out, .second => .test a out
  | .split _ second, .first => .split target second
  | .split first _, .second => .split first target

/-- The table with one edge led to a new target. -/
def setArrow (target : Edge) (states : Array State) (arrow : Arrow) : Array State :=
  states.modify arrow.state fun s => s.setEdge target arrow.slot

/-- The table with all the given edges led to one target. -/
def connect (states : Array State) (arrows : List Arrow) (target : Edge) : Array State :=
  arrows.foldl (setArrow target) states

@[simp] theorem size_setArrow (target : Edge) (states : Array State) (arrow : Arrow) :
    (setArrow target states arrow).size = states.size := by
  simp [setArrow]

@[simp] theorem size_connect (states : Array State) (arrows : List Arrow) (target : Edge) :
    (connect states arrows target).size = states.size := by
  induction arrows generalizing states with
  | nil => rfl
  | cons arrow arrows ih => exact (ih _).trans (size_setArrow ..)

/-- A piece of an automaton: the state to enter it by, and the edges that leave it. -/
structure Fragment where
  start : Nat
  dangling : List Arrow
  deriving DecidableEq

namespace Fragment

/-- One state that tests a character. -/
def atom (a : Atom) (states : Array State) : Fragment × Array State :=
  (⟨states.size, [⟨states.size, .first⟩]⟩, states.push (.test a .dangling))

/-- The left piece, followed by the right one. -/
def cat (left right : Fragment) (states : Array State) : Fragment × Array State :=
  (⟨left.start, right.dangling⟩, connect states left.dangling (.state right.start))

/-- A split that leads into either piece. -/
def alt (left right : Fragment) (states : Array State) : Fragment × Array State :=
  (⟨states.size, left.dangling ++ right.dangling⟩,
    states.push (.split (.state left.start) (.state right.start)))

/-- A split that leads into the piece or past it.  Where the piece may be repeated, what
leaves it comes back to the split; where it may not be left out, it is entered first. -/
def repeated (body : Fragment) (q : Quantifier) (states : Array State) :
    Fragment × Array State :=
  let split := states.size
  let past : Arrow := ⟨split, .second⟩
  let grown := states.push (.split (.state body.start) .dangling)
  match q with
  | .oneOrMore => (⟨body.start, [past]⟩, connect grown body.dangling (.state split))
  | .zeroOrMore => (⟨split, [past]⟩, connect grown body.dangling (.state split))
  | .zeroOrOne => (⟨split, body.dangling ++ [past]⟩, grown)

end Fragment

end RegexAutomaton
