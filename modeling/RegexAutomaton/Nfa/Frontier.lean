import RegexAutomaton.Nfa.Basic

/-!
# Frontiers

A frontier holds where an automaton can be after some of the subject has been
consumed.  Only the states that test a character are listed.  Splits are crossed as
soon as they are reached, and reaching acceptance raises a flag.

Each state is entered at most once while a frontier is filled.  That keeps the list
free of repetitions, and it is why filling ends even where splits lead back to one
another: the number of states not yet entered goes down (`count_visit`), or it stays
and there is one edge less to follow.
-/

set_option autoImplicit false

namespace RegexAutomaton

/-- Where an automaton of `size` states can be. -/
structure Frontier (size : Nat) where
  /-- The states that test a character, latest first. -/
  active : List (Fin size)
  /-- The states that have been entered, splits included. -/
  visited : Vector Bool size
  /-- Whether acceptance has been reached. -/
  accepting : Bool

namespace Frontier

/-- The frontier that holds nothing. -/
def empty (size : Nat) : Frontier size := ⟨[], Vector.replicate size false, false⟩

/-- Marks a state as entered. -/
def visit {size : Nat} (frontier : Frontier size) (i : Fin size) : Frontier size :=
  { frontier with visited := frontier.visited.set i true }

/-- Marks a state that tests a character as entered, and lists it. -/
def activate {size : Nat} (frontier : Frontier size) (i : Fin size) : Frontier size :=
  { frontier.visit i with active := i :: frontier.active }

/-- Raises the flag of acceptance. -/
def accept {size : Nat} (frontier : Frontier size) : Frontier size :=
  { frontier with accepting := true }

/-- Entering a state for the first time leaves fewer states to enter. -/
theorem count_visit {size : Nat} {frontier : Frontier size} {i : Fin size}
    (unvisited : ¬frontier.visited[i] = true) :
    (frontier.visit i).visited.count false < frontier.visited.count false := by
  have isFalse : frontier.visited[i.val] = false := by simpa using unvisited
  have positive : 0 < frontier.visited.count false := by
    rw [Vector.count_pos_iff, ← isFalse]
    exact Vector.getElem_mem i.isLt
  rw [visit, Vector.count_set]
  simp only [isFalse, BEq.rfl, ↓reduceIte, Bool.true_beq, Bool.false_eq_true]
  omega

end Frontier

/-- The edge that a state follows when it consumes the character, if it accepts it. -/
def State.follow? (c : Char) : State → Option Edge
  | .test a out => if a.accepts c then some out else none
  | .split _ _ => none

namespace Nfa

/-- Follows edges, first to last, each one as far as it goes without consuming anything.
An edge without a target leads nowhere. -/
def explore (nfa : Nfa) (frontier : Frontier nfa.states.size) (edges : List Edge) :
    Frontier nfa.states.size :=
  match edges with
  | [] => frontier
  | .dangling :: pending => nfa.explore frontier pending
  | .accept :: pending => nfa.explore frontier.accept pending
  | .state i :: pending =>
    if inTable : i < nfa.states.size then
      if frontier.visited[i] then nfa.explore frontier pending
      else
        match nfa.states[i] with
        | .test _ _ => nfa.explore (frontier.activate ⟨i, inTable⟩) pending
        | .split first second =>
          nfa.explore (frontier.visit ⟨i, inTable⟩) (first :: second :: pending)
    else nfa.explore frontier pending
termination_by (frontier.visited.count false, edges.length)
decreasing_by
  · exact Prod.Lex.right _ (Nat.lt_succ_self _)
  · exact Prod.Lex.right _ (Nat.lt_succ_self _)
  · exact Prod.Lex.right _ (Nat.lt_succ_self _)
  · exact Prod.Lex.left _ _ (Frontier.count_visit ‹¬frontier.visited[i] = true›)
  · exact Prod.Lex.left _ _ (Frontier.count_visit ‹¬frontier.visited[i] = true›)
  · exact Prod.Lex.right _ (Nat.lt_succ_self _)

/-- Where the automaton can be before anything is consumed. -/
def initial (nfa : Nfa) : Frontier nfa.states.size := nfa.explore (.empty _) [nfa.start]

/-- Where the automaton can be after one more character. -/
def step (nfa : Nfa) (frontier : Frontier nfa.states.size) (c : Char) :
    Frontier nfa.states.size :=
  nfa.explore (.empty _) (frontier.active.filterMap fun i => nfa.states[i].follow? c)

end Nfa

end RegexAutomaton
