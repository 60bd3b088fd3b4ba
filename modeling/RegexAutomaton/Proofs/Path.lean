import RegexAutomaton.Nfa.Basic

/-!
# Paths through a table of states

A path leads from an edge to a goal, which is again an edge.  It crosses a split
freely, along either of its edges, and it crosses a test by consuming one character
that the test accepts.  The word of a path lists the characters consumed, in order.

Paths compose (`Path.append`).  A path whose word has a character in it is cut at the
test that consumed the character (`Path.cut`), and one without characters crosses
splits only.
-/

set_option autoImplicit false

namespace RegexAutomaton

/-- A path from an edge to the goal, with the characters it consumes. -/
inductive Path (states : Array State) (goal : Edge) : Edge → List Char → Prop where
  | arrive : Path states goal goal []
  | consume {i : Nat} {a : Atom} {out : Edge} {c : Char} {word : List Char}
      (here : states[i]? = some (.test a out)) (accepts : a.accepts c = true)
      (rest : Path states goal out word) : Path states goal (.state i) (c :: word)
  | first {i : Nat} {first second : Edge} {word : List Char}
      (here : states[i]? = some (.split first second))
      (rest : Path states goal first word) : Path states goal (.state i) word
  | second {i : Nat} {first second : Edge} {word : List Char}
      (here : states[i]? = some (.split first second))
      (rest : Path states goal second word) : Path states goal (.state i) word

/-- The words that lead the automaton from its start edge to acceptance. -/
def Nfa.Accepts (nfa : Nfa) (word : List Char) : Prop := Path nfa.states .accept nfa.start word

namespace Path

variable {states : Array State} {goal middle e : Edge}

theorem append {u v : List Char} (before : Path states middle e u)
    (after : Path states goal middle v) : Path states goal e (u ++ v) := by
  induction before with
  | arrive => exact after
  | consume here accepts _ ih => exact .consume here accepts ih
  | first here _ ih => exact .first here ih
  | second here _ ih => exact .second here ih

/-- **A path is cut at any of its characters**, into the path up to the test that consumed
it and the path from there on. -/
theorem cut {u v : List Char} {c : Char} (path : Path states goal e (u ++ c :: v)) :
    ∃ i a out, states[i]? = some (.test a out) ∧ a.accepts c = true ∧
      Path states (.state i) e u ∧ Path states goal out v := by
  generalize whole : u ++ c :: v = word at path
  induction path generalizing u with
  | arrive => simp at whole
  | @consume i a out d word here accepts rest ih =>
      cases u with
      | nil =>
          simp only [List.nil_append, List.cons.injEq] at whole
          obtain ⟨rfl, rfl⟩ := whole
          exact ⟨i, a, out, here, accepts, .arrive, rest⟩
      | cons d' u =>
          simp only [List.cons_append, List.cons.injEq] at whole
          obtain ⟨rfl, same⟩ := whole
          obtain ⟨j, b, out', there, accepts', before, after⟩ := ih same
          exact ⟨j, b, out', there, accepts', .consume here accepts before, after⟩
  | first here _ ih =>
      obtain ⟨j, b, out, there, accepts, before, after⟩ := ih whole
      exact ⟨j, b, out, there, accepts, .first here before, after⟩
  | second here _ ih =>
      obtain ⟨j, b, out, there, accepts, before, after⟩ := ih whole
      exact ⟨j, b, out, there, accepts, .second here before, after⟩

end Path

end RegexAutomaton
