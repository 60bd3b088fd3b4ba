import RegexAutomaton.Proofs.Partitioning

/-!
# Every edge gets its target once

A journal tells what is done to a table, change by change: a state is added, or one edge is led to
a target (`Change`).  The stack machine keeps one, and its table is what comes of the journal when
it is replayed (`Assembly.replay_run`).

**Nothing is overwritten.** A journal is orderly if it leads only edges that have no target at that
moment, and leads them to one (`Orderly`).  The edges that have a target after an orderly journal
are those that were given one, and they were given no other (`Orderly.targetOf_replay`).

**Result.** The arrows of a piece on the stack are the edges of its block that have no target, each
of them once (`Fragment.Owns`).  So a step that leads them somewhere is orderly
(`Assembly.orderly_step`), and in a finished automaton every edge has been given just the
target that it has (`Assembly.arrows_led_once`).
-/

set_option autoImplicit false

namespace RegexAutomaton

/-! ## Journals -/

/-- One change of a table. -/
inductive Change where
  /-- A state is put at the end of the table. -/
  | add (s : State)
  /-- One edge is led to a target. -/
  | lead (arrow : Arrow) (target : Edge)
  deriving DecidableEq

/-- The table after a change. -/
def Change.apply (states : Array State) : Change → Array State
  | .add s => states.push s
  | .lead arrow target => setArrow target states arrow

/-- The table after a journal of changes. -/
def replay (states : Array State) (journal : List Change) : Array State :=
  journal.foldl Change.apply states

/-- The journal of leading arrows to one target, one after the other. -/
def leads (arrows : List Arrow) (target : Edge) : List Change :=
  arrows.map fun arrow => .lead arrow target

/-- No edge is led elsewhere once it has a target, and none is led to no target. -/
def Orderly (states : Array State) : List Change → Prop
  | [] => True
  | .add s :: rest => Orderly (states.push s) rest
  | .lead arrow target :: rest =>
    edgeAt states arrow = some .dangling ∧ target ≠ .dangling ∧
      Orderly (setArrow target states arrow) rest

/-- The target of an edge, if there is the edge and it has one. -/
def targetOf : Option Edge → List Edge
  | none => []
  | some .dangling => []
  | some e => [e]

/-- The targets that an edge is given in a journal that starts from a table of the given size, in
their order: the one that its state is added with, and those that it is led to. -/
def targets (arrow : Arrow) : Nat → List Change → List Edge
  | _, [] => []
  | size, .add s :: rest =>
    (if arrow.state = size then targetOf (s.edge? arrow.slot) else []) ++
      targets arrow (size + 1) rest
  | size, .lead led target :: rest =>
    (if led = arrow then [target] else []) ++ targets arrow size rest

theorem targetOf_eq_of_ne {e : Edge} (given : e ≠ .dangling) : targetOf (some e) = [e] := by
  cases e with
  | dangling => exact absurd rfl given
  | state i => rfl
  | accept => rfl

theorem replay_append (states : Array State) (journal more : List Change) :
    replay states (journal ++ more) = replay (replay states journal) more :=
  List.foldl_append

theorem replay_leads (states : Array State) (arrows : List Arrow) (target : Edge) :
    replay states (leads arrows target) = connect states arrows target :=
  List.foldl_map

theorem orderly_append {states : Array State} {journal more : List Change} :
    Orderly states (journal ++ more) ↔
      Orderly states journal ∧ Orderly (replay states journal) more := by
  induction journal generalizing states with
  | nil => exact (iff_of_eq (true_and _)).symm
  | cons change rest ih =>
      cases change with
      | add s => exact ih
      | lead arrow target => simp only [List.cons_append, Orderly, ih, and_assoc]; rfl

/-- **Leading different edges that have no target is orderly.** -/
theorem orderly_leads {states : Array State} {arrows : List Arrow} {target : Edge}
    (once : arrows.Nodup) (loose : ∀ arrow ∈ arrows, edgeAt states arrow = some .dangling)
    (given : target ≠ .dangling) : Orderly states (leads arrows target) := by
  induction arrows generalizing states with
  | nil => trivial
  | cons arrow arrows ih =>
      obtain ⟨new, once⟩ := List.nodup_cons.mp once
      refine ⟨loose arrow List.mem_cons_self, given, ih once fun other member => ?_⟩
      have different : arrow ≠ other := fun same => new (same ▸ member)
      rw [edgeAt_setArrow, if_neg different]
      exact loose other (List.mem_cons_of_mem arrow member)

/-- Arrows of a block that are led to one target had none, and each is led but once. -/
theorem Block.orderly_leads {states : Array State} {low high : Nat} {arrows more : List Arrow}
    {target : Edge} (block : Block states low high (arrows ++ more)) (given : target ≠ .dangling) :
    Orderly states (leads arrows target) := by
  refine RegexAutomaton.orderly_leads (List.nodup_append.mp block.once).1 (fun arrow led => ?_)
    given
  exact ((block.listed arrow).mp (List.mem_append_left more led)).2

/-- **In an orderly journal an edge has the target that it was given**, and was given no other
one. -/
theorem Orderly.targetOf_replay {states : Array State} {journal : List Change}
    (orderly : Orderly states journal) (arrow : Arrow) :
    targetOf (edgeAt (replay states journal) arrow) =
      targetOf (edgeAt states arrow) ++ targets arrow states.size journal := by
  induction journal generalizing states with
  | nil => exact (List.append_nil _).symm
  | cons change rest ih =>
      cases change with
      | add s =>
          have before := ih orderly
          rw [Array.size_push] at before
          show targetOf (edgeAt (replay (states.push s) rest) arrow) = _
          rw [before, targets, ← List.append_assoc, edgeAt_push]
          congr 1
          by_cases last : arrow.state = states.size
          · rw [if_pos last, if_pos last, edgeAt_eq_none_of_size_le last.ge]
            rfl
          · rw [if_neg last, if_neg last, List.append_nil]
      | lead led target =>
          obtain ⟨loose, given, orderly⟩ := orderly
          have before := ih orderly
          rw [size_setArrow] at before
          show targetOf (edgeAt (replay (setArrow target states led) rest) arrow) = _
          rw [before, targets, ← List.append_assoc, edgeAt_setArrow]
          congr 1
          by_cases here : led = arrow
          · subst here
            rw [if_pos rfl, if_pos rfl, loose]
            exact targetOf_eq_of_ne given
          · rw [if_neg here, if_neg here, List.append_nil]

/-! ## The journal of the stack machine -/

namespace Assembly

/-- What taking in a token does to the table. -/
def changes (m : Assembly) (t : Token) : List Change :=
  match t, m.stack with
  | .atom a, _ => [.add (.test a .dangling)]
  | .quantifier q, body :: _ =>
    .add (.split (.state body.start) .dangling) ::
      match q with
      | .zeroOrOne => []
      | _ => leads body.dangling (.state m.states.size)
  | .cat, right :: left :: _ => leads left.dangling (.state right.start)
  | .alt, right :: left :: _ => [.add (.split (.state left.start) (.state right.start))]
  | _, _ => []

/-- What a run does to the table, up to the token that it fails at. -/
def journal (m : Assembly) : List Token → List Change
  | [] => []
  | t :: rest =>
    match m.step t with
    | .error _ => []
    | .ok next => m.changes t ++ next.journal rest

/-- What finishing does to the table. -/
def closing (m : Assembly) : List Change :=
  match m.stack with
  | [f] => leads f.dangling .accept
  | _ => []

variable {m next : Assembly}

/-- **A step makes the changes of its journal**, and no others. -/
theorem states_step {t : Token} (steps : m.step t = .ok next) :
    next.states = replay m.states (m.changes t) := by
  obtain ⟨states, stack⟩ := m
  cases t with
  | atom a =>
      cases steps
      rfl
  | quantifier q =>
      rcases stack with _ | ⟨body, stack⟩ <;> cases steps
      cases q with
      | zeroOrOne => rfl
      | oneOrMore => exact (replay_leads _ _ _).symm
      | zeroOrMore => exact (replay_leads _ _ _).symm
  | cat =>
      rcases stack with _ | ⟨right, _ | ⟨left, stack⟩⟩ <;> cases steps
      exact (replay_leads _ _ _).symm
  | alt =>
      rcases stack with _ | ⟨right, _ | ⟨left, stack⟩⟩ <;> cases steps
      rfl

/-- **What a step leads elsewhere had no target**, and is led but once. -/
theorem orderly_step (partitioned : m.Partitioned) {t : Token} (steps : m.step t = .ok next) :
    Orderly m.states (m.changes t) := by
  obtain ⟨states, stack⟩ := m
  cases t with
  | atom a => trivial
  | quantifier q =>
      rcases stack with _ | ⟨body, stack⟩ <;> cases steps
      obtain _ | ⟨_, inBody⟩ := partitioned
      have looped : Orderly (states.push (.split (.state body.start) .dangling))
          (leads body.dangling (.state states.size)) :=
        (inBody.block.push_split inBody.lt.le inBody.start .dangling trivial).orderly_leads
          Edge.noConfusion
      cases q with
      | oneOrMore => exact looped
      | zeroOrMore => exact looped
      | zeroOrOne => trivial
  | cat =>
      rcases stack with _ | ⟨right, _ | ⟨left, stack⟩⟩ <;> cases steps
      obtain _ | ⟨_ | ⟨_, inLeft⟩, inRight⟩ := partitioned
      exact (inLeft.block.join inRight.block inLeft.lt.le inRight.lt.le).orderly_leads
        Edge.noConfusion
  | alt =>
      rcases stack with _ | ⟨right, _ | ⟨left, stack⟩⟩ <;> cases steps
      trivial

/-- **The table is what comes of the journal**, and the journal is orderly. -/
theorem replay_run {tokens : List Token} (partitioned : m.Partitioned)
    (runs : m.run tokens = .ok next) :
    next.states = replay m.states (m.journal tokens) ∧ Orderly m.states (m.journal tokens) := by
  induction tokens generalizing m with
  | nil =>
      cases runs
      exact ⟨rfl, trivial⟩
  | cons t rest ih =>
      obtain ⟨middle, steps, runs⟩ := exists_step_of_run runs
      obtain ⟨states, orderly⟩ := ih (partitioned.step steps) runs
      have whole : m.journal (t :: rest) = m.changes t ++ middle.journal rest := by
        rw [journal, steps]
      rw [whole, replay_append, orderly_append, ← states_step steps]
      exact ⟨states, orderly_step partitioned steps, orderly⟩

theorem replay_finish {nfa : Nfa} (partitioned : m.Partitioned) (finishes : m.finish = .ok nfa) :
    nfa.states = replay m.states m.closing ∧ Orderly m.states m.closing := by
  obtain ⟨states, stack⟩ := m
  rcases stack with _ | ⟨f, _ | ⟨g, stack⟩⟩ <;> cases finishes
  · exact ⟨rfl, trivial⟩
  · obtain _ | ⟨_, owns⟩ := partitioned
    have block := owns.block
    rw [← List.append_nil f.dangling] at block
    exact ⟨(replay_leads _ _ _).symm, block.orderly_leads Edge.noConfusion⟩

end Assembly

namespace Nfa

/-- What building an automaton from a sequence does to the table. -/
def journal (tokens : List Token) : List Change :=
  Assembly.start.journal tokens ++
    match Assembly.start.run tokens with
    | .error _ => []
    | .ok m => m.closing

variable {tokens : List Token} {nfa : Nfa}

theorem replay_ofPostfix (builds : ofPostfix tokens = .ok nfa) :
    nfa.states = replay #[] (journal tokens) ∧ Orderly #[] (journal tokens) := by
  rw [ofPostfix] at builds
  cases runs : Assembly.start.run tokens with
  | error e =>
      rw [runs] at builds
      cases builds
  | ok m =>
      rw [runs] at builds
      have partitioned := Assembly.partitioned_start.run runs
      obtain ⟨built, orderly⟩ := Assembly.replay_run Assembly.partitioned_start runs
      obtain ⟨finished, closes⟩ := Assembly.replay_finish partitioned builds
      have whole : journal tokens = Assembly.start.journal tokens ++ m.closing := by
        rw [journal, runs]
      rw [whole, replay_append, orderly_append]
      change m.states = replay #[] _ at built
      rw [← built]
      exact ⟨finished, orderly, closes⟩

theorem Wired.ne_dangling (wired : nfa.Wired) {arrow : Arrow} {e : Edge}
    (here : edgeAt nfa.states arrow = some e) : e ≠ .dangling := by
  rintro rfl
  obtain ⟨s, inTable, edge⟩ := Option.bind_eq_some_iff.mp here
  exact wired.2 s (Array.mem_of_getElem? inTable) _ (State.mem_edges_iff.mpr ⟨_, edge⟩)

/-- **In a finished automaton every edge was given its target once**, and no other one. -/
theorem targets_of_edgeAt (builds : ofPostfix tokens = .ok nfa) {arrow : Arrow} {e : Edge}
    (here : edgeAt nfa.states arrow = some e) : targets arrow 0 (journal tokens) = [e] := by
  obtain ⟨built, orderly⟩ := replay_ofPostfix builds
  have given := orderly.targetOf_replay arrow
  rw [← built, here, targetOf_eq_of_ne ((wired_ofPostfix builds).ne_dangling here),
    edgeAt_eq_none_of_size_le (Nat.zero_le _)] at given
  exact given.symm

end Nfa

/-- **No arrow is lost and none is led twice.**

After every prefix of a sequence that does not run short of operands, the pieces on the stack
divide the table into blocks, in the order of the stack, where no edge leaves its block and the
arrows of a piece are those edges of its block without target, each of them once.  They are the
edges of tests and the second edges of splits.  What has been done to the table up to there leads
no edge that has a target.

If the sequence builds an automaton, finishing it does not either, and every edge of the
automaton has been given exactly one target, which is the one that it has. -/
theorem Assembly.arrows_led_once (tokens : List Token) :
    (∀ k m, start.run (tokens.take k) = .ok m →
      m.Partitioned ∧
      (∀ f ∈ m.stack, ∀ arrow ∈ f.dangling,
        (∃ a, m.states[arrow.state]? = some (.test a .dangling) ∧ arrow.slot = .first) ∨
        ∃ i, m.states[arrow.state]? = some (.split (.state i) .dangling) ∧
          arrow.slot = .second) ∧
      m.states = replay #[] (start.journal (tokens.take k)) ∧
      Orderly #[] (start.journal (tokens.take k))) ∧
    ∀ nfa, Nfa.ofPostfix tokens = .ok nfa →
      nfa.states = replay #[] (Nfa.journal tokens) ∧ Orderly #[] (Nfa.journal tokens) ∧
      ∀ arrow e, edgeAt nfa.states arrow = some e →
        e ≠ .dangling ∧ targets arrow 0 (Nfa.journal tokens) = [e] := by
  refine ⟨fun k m runs => ?_, fun nfa builds => ?_⟩
  · have partitioned := partitioned_start.run runs
    refine ⟨partitioned, fun f member arrow listed => ?_, replay_run partitioned_start runs⟩
    obtain ⟨low, high, owns⟩ := partitioned.exists_owns member
    exact owns.block.slot_cases listed
  · obtain ⟨built, orderly⟩ := Nfa.replay_ofPostfix builds
    refine ⟨built, orderly, fun arrow e here => ⟨?_, Nfa.targets_of_edgeAt builds here⟩⟩
    exact (Nfa.wired_ofPostfix builds).ne_dangling here

/-- The sequence for `(a|b*)c`.  After the first four tokens there is one piece, which a letter and
the split of the repetition leave, and both are led to the letter that comes next. -/
theorem Assembly.arrows_led_once_repetition_in_alternation :
    ∃ m, start.run [.atom (.char 'a' false), .atom (.char 'b' false), .quantifier .zeroOrMore,
        .alt] = .ok m ∧ m.stack = [⟨3, [⟨0, .first⟩, ⟨2, .second⟩]⟩] ∧ m.Partitioned ∧
      ∃ nfa, Nfa.ofPostfix [.atom (.char 'a' false), .atom (.char 'b' false),
          .quantifier .zeroOrMore, .alt, .atom (.char 'c' false), .cat] = .ok nfa ∧
        edgeAt nfa.states ⟨2, .second⟩ = some (.state 4) ∧
        targets ⟨2, .second⟩ 0 (Nfa.journal [.atom (.char 'a' false), .atom (.char 'b' false),
          .quantifier .zeroOrMore, .alt, .atom (.char 'c' false), .cat]) = [.state 4] := by
  obtain ⟨onTheWay, finished⟩ := arrows_led_once [.atom (.char 'a' false),
    .atom (.char 'b' false), .quantifier .zeroOrMore, .alt, .atom (.char 'c' false), .cat]
  obtain ⟨partitioned, _⟩ := onTheWay 4 _ rfl
  obtain ⟨_, _, once⟩ := finished _ rfl
  exact ⟨_, rfl, rfl, partitioned, _, rfl, rfl, (once _ _ rfl).2⟩

end RegexAutomaton
