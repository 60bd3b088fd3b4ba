import RegexAutomaton.Proofs.Wiring

/-!
# Nothing is taken for granted

The stack machine in a form that stops without a result at everything that must not
happen: an operator without operands, an arrow that names no edge of the table, and more
than one piece left at the end (`Assembly.run?`, `Assembly.finish?`).

The arrows of a coherent assembly name edges, so where the operands suffice nothing else
stops the machine, whatever the sequence is (`Assembly.run?_eq`).  It builds exactly the
automata that the machine builds, and has no result for the sequences where the machine
fails (`Nfa.checked_ofPostfix`).
-/

set_option autoImplicit false

namespace RegexAutomaton

/-! ## The checked machine -/

/-- Leads an arrow to a target, if it names an edge: the only one of a test, or either one
of a split. -/
def setArrow? (target : Edge) (states : Array State) (arrow : Arrow) : Option (Array State) :=
  if (edgeAt states arrow).isSome then some (setArrow target states arrow) else none

/-- Leads all the given arrows to one target, if each names an edge. -/
def connect? (states : Array State) (arrows : List Arrow) (target : Edge) :
    Option (Array State) :=
  arrows.foldlM (setArrow? target) states

namespace Fragment

/-- The left piece, followed by the right one. -/
def cat? (left right : Fragment) (states : Array State) : Option (Fragment × Array State) :=
  (connect? states left.dangling (.state right.start)).map fun connected =>
    (⟨left.start, right.dangling⟩, connected)

/-- A split that leads into the piece or past it. -/
def repeated? (body : Fragment) (q : Quantifier) (states : Array State) :
    Option (Fragment × Array State) :=
  let split := states.size
  let past : Arrow := ⟨split, .second⟩
  let grown := states.push (.split (.state body.start) .dangling)
  match q with
  | .oneOrMore => (connect? grown body.dangling (.state split)).map fun connected =>
      (⟨body.start, [past]⟩, connected)
  | .zeroOrMore => (connect? grown body.dangling (.state split)).map fun connected =>
      (⟨split, [past]⟩, connected)
  | .zeroOrOne => some (⟨split, body.dangling ++ [past]⟩, grown)

end Fragment

namespace Assembly

/-- Takes in one token.  There is no result if an operand is missing. -/
def step? (m : Assembly) (t : Token) : Option Assembly :=
  match t, m.stack with
  | .atom a, stack => some (push stack (Fragment.atom a m.states))
  | .quantifier q, body :: stack => (body.repeated? q m.states).map (push stack)
  | .cat, right :: left :: stack => (left.cat? right m.states).map (push stack)
  | .alt, right :: left :: stack => some (push stack (left.alt right m.states))
  | _, _ => none

/-- Takes in a sequence of tokens, from left to right. -/
def run? (m : Assembly) (tokens : List Token) : Option Assembly := tokens.foldlM step? m

/-- The automaton of the one piece left, or of the empty subject if there is none.  There is
no result if more pieces are left. -/
def finish? (m : Assembly) : Option Nfa :=
  match m.stack with
  | [] => some (Nfa.ofNothing m.states)
  | [f] => (connect? m.states f.dangling .accept).map fun connected =>
      ⟨connected, .state f.start⟩
  | _ => none

end Assembly

/-! ## Nothing stops it -/

/-- Arrows that name edges can all be led to a target. -/
theorem connect?_eq {states : Array State} {arrows : List Arrow}
    (named : ∀ arrow ∈ arrows, (edgeAt states arrow).isSome) (target : Edge) :
    connect? states arrows target = some (connect states arrows target) := by
  induction arrows generalizing states with
  | nil => rfl
  | cons arrow arrows ih =>
      have first : setArrow? target states arrow = some (setArrow target states arrow) :=
        if_pos (named arrow List.mem_cons_self)
      rw [connect?, List.foldlM_cons, first, Option.bind_eq_bind, Option.bind_some, ← connect?]
      apply ih
      intro other member
      have before := named other (List.mem_cons_of_mem arrow member)
      exact (isSome_edgeAt_connect states [arrow] target other).trans before

theorem Fragment.cat?_eq {left : Fragment} {states : Array State}
    (named : ∀ arrow ∈ left.dangling, (edgeAt states arrow).isSome) (right : Fragment) :
    left.cat? right states = some (left.cat right states) := by
  rw [cat?, connect?_eq named]
  rfl

theorem Fragment.repeated?_eq {body : Fragment} {states : Array State}
    (named : ∀ arrow ∈ body.dangling, (edgeAt states arrow).isSome) (q : Quantifier) :
    body.repeated? q states = some (body.repeated q states) := by
  have grown := connect?_eq (fun arrow member => isSome_edgeAt_push (named arrow member)
    (.split (.state body.start) .dangling)) (.state states.size)
  cases q with
  | oneOrMore =>
      simp only [repeated?, grown]
      rfl
  | zeroOrMore =>
      simp only [repeated?, grown]
      rfl
  | zeroOrOne => rfl

namespace Assembly

variable {m next : Assembly}

/-- **Where the operands suffice nothing stops a step.** -/
theorem step?_eq (coherent : m.Coherent) {t : Token} (steps : m.step t = .ok next) :
    m.step? t = some next := by
  obtain ⟨states, stack⟩ := m
  cases t with
  | atom a =>
      cases steps
      rfl
  | quantifier q =>
      rcases stack with _ | ⟨body, stack⟩ <;> cases steps
      have named := coherent.arrows body List.mem_cons_self
      show (body.repeated? q states).map (push stack) = _
      rw [Fragment.repeated?_eq named]
      rfl
  | cat =>
      rcases stack with _ | ⟨right, _ | ⟨left, stack⟩⟩ <;> cases steps
      have named := coherent.arrows left (List.mem_cons_of_mem _ List.mem_cons_self)
      show (left.cat? right states).map (push stack) = _
      rw [Fragment.cat?_eq named]
      rfl
  | alt =>
      rcases stack with _ | ⟨right, _ | ⟨left, stack⟩⟩ <;> cases steps
      rfl

/-- A step that fails is stopped. -/
theorem step?_eq_none {t : Token} {e : BuildError} (fails : m.step t = .error e) :
    m.step? t = none := by
  obtain ⟨states, stack⟩ := m
  cases t with
  | atom a => cases fails
  | quantifier q =>
      rcases stack with _ | ⟨body, stack⟩ <;> cases fails
      rfl
  | cat =>
      rcases stack with _ | ⟨right, _ | ⟨left, stack⟩⟩ <;> cases fails
      · rfl
      · rfl
  | alt =>
      rcases stack with _ | ⟨right, _ | ⟨left, stack⟩⟩ <;> cases fails
      · rfl
      · rfl

/-- **Where the operands suffice nothing stops a run**, whatever the sequence. -/
theorem run?_eq {tokens : List Token} (coherent : m.Coherent)
    (runs : m.run tokens = .ok next) : m.run? tokens = some next := by
  induction tokens generalizing m with
  | nil =>
      cases runs
      rfl
  | cons t rest ih =>
      obtain ⟨middle, steps, runs⟩ := exists_step_of_run runs
      rw [run?, List.foldlM_cons, step?_eq coherent steps, Option.bind_eq_bind,
        Option.bind_some, ← run?]
      exact ih (coherent.step steps) runs

theorem finish?_eq (coherent : m.Coherent) {nfa : Nfa} (finishes : m.finish = .ok nfa) :
    m.finish? = some nfa := by
  obtain ⟨states, stack⟩ := m
  rcases stack with _ | ⟨f, _ | ⟨g, stack⟩⟩ <;> cases finishes
  · rfl
  · have named := coherent.arrows f List.mem_cons_self
    show (connect? states f.dangling .accept).map _ = _
    rw [connect?_eq named]
    rfl

/-- **The checked run stops exactly where an operand is missing.** -/
theorem run?_eq_toOption (coherent : m.Coherent) (tokens : List Token) :
    m.run? tokens = (m.run tokens).toOption := by
  induction tokens generalizing m with
  | nil => rfl
  | cons t rest ih =>
      rw [run?, List.foldlM_cons, run]
      cases steps : m.step t with
      | error e =>
          rw [step?_eq_none steps]
          rfl
      | ok middle =>
          rw [step?_eq coherent steps]
          exact ih (coherent.step steps)

theorem finish?_eq_toOption (coherent : m.Coherent) : m.finish? = m.finish.toOption := by
  cases finishes : m.finish with
  | ok nfa => exact finish?_eq coherent finishes
  | error e =>
      obtain ⟨states, stack⟩ := m
      rcases stack with _ | ⟨f, _ | ⟨g, stack⟩⟩ <;> cases finishes
      rfl

end Assembly

/-- **The checked machine builds what the machine builds**, and is stopped where the machine
fails. -/
theorem Nfa.checked_ofPostfix (tokens : List Token) :
    (Assembly.start.run? tokens).bind Assembly.finish? = (Nfa.ofPostfix tokens).toOption := by
  rw [Assembly.run?_eq_toOption Assembly.coherent_start, Nfa.ofPostfix]
  cases runs : Assembly.start.run tokens with
  | error e => rfl
  | ok m => exact Assembly.finish?_eq_toOption (Assembly.coherent_start.run runs)

/-- The machine does stop where an operand is missing, and where there is no edge to lead on. -/
example : Assembly.start.run? [.atom (.char 'a' false), .cat] = none ∧
    connect? #[.test (.char 'a' false) .dangling] [⟨0, .second⟩] .accept = none := by
  constructor <;> rfl

end RegexAutomaton
