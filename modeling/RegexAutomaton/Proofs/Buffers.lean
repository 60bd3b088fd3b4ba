import RegexAutomaton.Proofs.Exploration

/-!
# Running in place

A run needs two frontiers at a time, the one it is at and the one it steps to.  It can
make do with two buffers: the frontier that has been left is emptied and filled anew, and
the two change places (`Nfa.runFrom?`).

In this form a run takes nothing for granted.  It stops without an answer as soon as it
meets an edge without a target or one that leads out of the table (`Nfa.explore?`).  In a
wired automaton it never does (`Nfa.runFrom?_eq`), and what a buffer held before it was
emptied does not matter.  So every run ends with the answer whether the subject is accepted
(`Nfa.run?_iff_accepts`).
-/

set_option autoImplicit false

namespace RegexAutomaton

/-- Empties a frontier that has been used. -/
def Frontier.clear {size : Nat} (frontier : Frontier size) : Frontier size :=
  ⟨[], frontier.visited.map fun _ => false, false⟩

/-- **An emptied frontier holds nothing**, whatever it held before. -/
theorem Frontier.clear_eq {size : Nat} (frontier : Frontier size) :
    frontier.clear = .empty size := by
  have forgotten : frontier.visited.map (fun _ => false) = Vector.replicate size false := by
    ext i inTable
    simp
  rw [clear, forgotten, empty]

namespace Nfa

/-- Follows edges as `explore` does, but stops without an answer at an edge that has no
target or leads out of the table. -/
def explore? (nfa : Nfa) (frontier : Frontier nfa.states.size) (edges : List Edge) :
    Option (Frontier nfa.states.size) :=
  match edges with
  | [] => some frontier
  | .dangling :: _ => none
  | .accept :: pending => nfa.explore? frontier.accept pending
  | .state i :: pending =>
    if inTable : i < nfa.states.size then
      if frontier.visited[i] then nfa.explore? frontier pending
      else
        match nfa.states[i] with
        | .test _ _ => nfa.explore? (frontier.activate ⟨i, inTable⟩) pending
        | .split first second =>
          nfa.explore? (frontier.visit ⟨i, inTable⟩) (first :: second :: pending)
    else none
termination_by (frontier.visited.count false, edges.length)
decreasing_by
  · exact Prod.Lex.right _ (Nat.lt_succ_self _)
  · exact Prod.Lex.right _ (Nat.lt_succ_self _)
  · exact Prod.Lex.left _ _ (Frontier.count_visit ‹¬frontier.visited[i] = true›)
  · exact Prod.Lex.left _ _ (Frontier.count_visit ‹¬frontier.visited[i] = true›)

/-- Where the automaton can be before anything is consumed. -/
def initial? (nfa : Nfa) : Option (Frontier nfa.states.size) :=
  nfa.explore? (.empty _) [nfa.start]

/-- Where the automaton can be after one more character.  The spare frontier is emptied and
filled. -/
def step? (nfa : Nfa) (current spare : Frontier nfa.states.size) (c : Char) :
    Option (Frontier nfa.states.size) :=
  nfa.explore? spare.clear (current.active.filterMap fun i => (nfa.states.toVector.get i).follow? c)

/-- Tells whether the rest of a subject is accepted from the current frontier.  After each
step the two frontiers change places. -/
def runFrom? (nfa : Nfa) (current spare : Frontier nfa.states.size) : List Char → Option Bool
  | [] => some current.accepting
  | c :: rest =>
    if current.active.isEmpty then some false
    else (nfa.step? current spare c).bind fun next => nfa.runFrom? next current rest

/-- Tells whether the automaton accepts the subject. -/
def run? (nfa : Nfa) (subject : List Char) : Option Bool :=
  nfa.initial?.bind fun current => nfa.runFrom? current (.empty _) subject

/-! ## Nothing stops a run -/

variable {nfa : Nfa}

theorem wired_of_mem_edges (wired : nfa.Wired) {i : Nat} (inTable : i < nfa.states.size)
    {e : Edge} (out : e ∈ nfa.states[i].edges) : e.Wired nfa.states.size :=
  wired.2 _ (Array.getElem_mem inTable) e out

/-- **Following edges that have a target never stops**, because the edges that come up on the
way have one too. -/
theorem explore?_eq (wired : nfa.Wired) (frontier : Frontier nfa.states.size)
    {edges : List Edge} (targets : ∀ e ∈ edges, e.Wired nfa.states.size) :
    nfa.explore? frontier edges = some (nfa.explore frontier edges) := by
  fun_induction Nfa.explore nfa frontier edges with
  | case1 frontier => rw [explore?]
  | case2 frontier pending => exact (targets .dangling List.mem_cons_self).elim
  | case3 frontier pending ih =>
      rw [explore?]
      exact ih fun e member => targets e (List.mem_cons_of_mem _ member)
  | case4 frontier i pending inTable visited ih =>
      rw [explore?, dif_pos inTable, if_pos visited]
      exact ih fun e member => targets e (List.mem_cons_of_mem _ member)
  | case5 frontier i pending inTable unvisited a out test ih =>
      rw [explore?, dif_pos inTable, if_neg unvisited]
      simp only [test]
      exact ih fun e member => targets e (List.mem_cons_of_mem _ member)
  | case6 frontier i pending inTable unvisited first second split ih =>
      rw [explore?, dif_pos inTable, if_neg unvisited]
      simp only [split]
      apply ih
      intro e member
      rcases List.mem_append.mp (show e ∈ [first, second] ++ pending from member) with new | old
      · apply wired_of_mem_edges wired inTable
        rwa [split]
      · exact targets e (List.mem_cons_of_mem _ old)
  | case7 frontier i pending outside =>
      exact absurd (targets (.state i) List.mem_cons_self) outside

theorem initial?_eq (wired : nfa.Wired) : nfa.initial? = some nfa.initial := by
  refine explore?_eq wired _ ?_
  intro e member
  rw [List.mem_singleton.mp member]
  exact wired.1

/-- **A step does not depend on what the spare frontier held.** -/
theorem step?_eq (wired : nfa.Wired) (current spare : Frontier nfa.states.size) (c : Char) :
    nfa.step? current spare c = some (nfa.step current c) := by
  rw [step?, spare.clear_eq]
  refine explore?_eq wired _ ?_
  intro e member
  obtain ⟨i, _, follows⟩ := List.mem_filterMap.mp member
  obtain ⟨a, test, _⟩ := follow?_eq_some_iff.mp follows
  apply wired_of_mem_edges wired i.isLt
  rw [show nfa.states[i.val] = .test a e from test]
  exact List.mem_singleton_self e

/-- **A run in two buffers answers as one with fresh frontiers does.** -/
theorem runFrom?_eq (wired : nfa.Wired) (current spare : Frontier nfa.states.size)
    (rest : List Char) : nfa.runFrom? current spare rest = some (nfa.runFrom current rest) := by
  induction rest generalizing current spare with
  | nil => rfl
  | cons c rest ih =>
      rw [runFrom?, runFrom, step?_eq wired, Option.bind_some, ih]
      split <;> rfl

theorem run?_eq (wired : nfa.Wired) (subject : List Char) :
    nfa.run? subject = some (nfa.run subject) := by
  rw [run?, initial?_eq wired, Option.bind_some, runFrom?_eq wired, run]

/-- **A run of a wired automaton ends, and tells whether some path of the subject leads to
acceptance.**  It answers as a run that never gives up early does, from any frontier, and
whatever the spare buffer holds. -/
theorem run?_iff_accepts (wired : nfa.Wired) (subject : List Char) :
    (∃ answer, nfa.run? subject = some answer ∧ nfa.run subject = answer ∧
      (answer = true ↔ nfa.Accepts subject)) ∧
    ∀ (current spare : Frontier nfa.states.size) (rest : List Char),
      nfa.runFrom? current spare rest = some (nfa.runFrom current rest) ∧
      nfa.runFrom current rest = (rest.foldl nfa.step current).accepting := by
  constructor
  · exact ⟨nfa.run subject, run?_eq wired subject, rfl, nfa.run_eq_true_iff subject⟩
  · intro current spare rest
    exact ⟨runFrom?_eq wired current spare rest, nfa.runFrom_eq current rest⟩

/-- Two splits that lead back to themselves and to each other, and one test. -/
def splitCycle : Nfa :=
  ⟨#[.split (.state 0) (.state 1), .split (.state 2) (.state 0), .test (.any false) .accept],
    .state 0⟩

theorem run?_iff_accepts_splitCycle :
    splitCycle.Wired ∧ ∃ answer, splitCycle.run? ['x'] = some answer ∧
      splitCycle.run ['x'] = answer ∧ (answer = true ↔ splitCycle.Accepts ['x']) := by
  have wired : splitCycle.Wired := by decide
  exact ⟨wired, (run?_iff_accepts wired ['x']).1⟩

/-- The splits are crossed once for each character, and the run ends. -/
example : splitCycle.run? ['x'] = some true ∧ splitCycle.run? ['x', 'x'] = some false := by
  cbv

end Nfa

end RegexAutomaton
