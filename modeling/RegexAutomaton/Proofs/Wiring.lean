import RegexAutomaton.Proofs.Construction

/-!
# Every edge gets a target

An arrow names an edge by its state and its slot (`edgeAt`).  Leading arrows to a target
changes the edges that they name and no others (`edgeAt_connect`), so it never changes
which edges there are.

**What holds while pieces are put together.**  The pieces on the stack are entered by
states of the table, their arrows name edges of the table, and every edge has a target
unless an arrow of some piece on the stack names it (`Assembly.Coherent`).  Taking in a
token replaces the pieces that it uses by one (`Replaces`), and that keeps the assembly
coherent (`Assembly.Coherent.step`).

**Result.** When one piece is left, its arrows name all the edges without a target.  They
are led to acceptance, so every finished automaton is wired (`Nfa.wired_ofPostfix`).
-/

set_option autoImplicit false

namespace RegexAutomaton

/-! ## The edge that an arrow names -/

/-- The edge in a slot.  A test has no second edge. -/
def State.edge? : State → Slot → Option Edge
  | .test _ out, .first => some out
  | .test _ _, .second => none
  | .split first _, .first => some first
  | .split _ second, .second => some second

/-- The edge that an arrow names, if the table has it. -/
def edgeAt (states : Array State) (arrow : Arrow) : Option Edge :=
  states[arrow.state]?.bind fun s => s.edge? arrow.slot

theorem State.mem_edges_iff {s : State} {e : Edge} :
    e ∈ s.edges ↔ ∃ slot, s.edge? slot = some e := by
  cases s with
  | test a out =>
      constructor
      · intro member
        exact ⟨.first, congrArg some (List.mem_singleton.mp member).symm⟩
      · rintro ⟨_ | _, same⟩ <;> cases same
        exact List.mem_singleton_self _
  | split first second =>
      constructor
      · intro member
        rcases List.mem_pair.mp member with rfl | rfl
        · exact ⟨.first, rfl⟩
        · exact ⟨.second, rfl⟩
      · rintro ⟨_ | _, same⟩ <;> cases same <;> simp [State.edges]

theorem State.edge?_setEdge (target : Edge) (s : State) (slot other : Slot) :
    (s.setEdge target slot).edge? other =
      if slot = other then (s.edge? other).map fun _ => target else s.edge? other := by
  cases s <;> cases slot <;> cases other <;> rfl

theorem edgeAt_push (states : Array State) (s : State) (arrow : Arrow) :
    edgeAt (states.push s) arrow =
      if arrow.state = states.size then s.edge? arrow.slot else edgeAt states arrow := by
  rw [edgeAt, Array.getElem?_push]
  split <;> rfl

theorem edgeAt_setArrow (target : Edge) (states : Array State) (arrow other : Arrow) :
    edgeAt (setArrow target states arrow) other =
      if arrow = other then (edgeAt states other).map fun _ => target
      else edgeAt states other := by
  obtain ⟨i, slot⟩ := arrow
  obtain ⟨j, slot'⟩ := other
  rw [edgeAt, edgeAt, getElem?_setArrow]
  by_cases here : i = j
  · subst here
    rw [if_pos rfl]
    cases states[i]? with
    | none => simp
    | some s => simpa using State.edge?_setEdge target s slot slot'
  · rw [if_neg here, if_neg fun same => here (congrArg Arrow.state same)]

/-- **Leading arrows changes the edges that they name**, and no others. -/
theorem edgeAt_connect (states : Array State) (arrows : List Arrow) (target : Edge)
    (other : Arrow) : edgeAt (connect states arrows target) other =
      if other ∈ arrows then (edgeAt states other).map fun _ => target
      else edgeAt states other := by
  induction arrows generalizing states with
  | nil => rfl
  | cons arrow arrows ih =>
      rw [connect, List.foldl_cons, ← connect, ih, edgeAt_setArrow]
      by_cases here : arrow = other
      · subst here
        cases edgeAt states arrow <;> simp
      · have elsewhere : ¬other = arrow := fun same => here same.symm
        simp [here, elsewhere]

/-- An edge that has been led somewhere is there as before. -/
theorem isSome_edgeAt_connect (states : Array State) (arrows : List Arrow) (target : Edge)
    (other : Arrow) :
    (edgeAt (connect states arrows target) other).isSome = (edgeAt states other).isSome := by
  rw [edgeAt_connect]
  split
  · exact Option.isSome_map
  · rfl

theorem edgeAt_eq_none_of_size_le {states : Array State} {arrow : Arrow}
    (outside : states.size ≤ arrow.state) : edgeAt states arrow = none := by
  rw [edgeAt, Array.getElem?_eq_none outside, Option.bind_none]

/-- The edges of a table are still there when a state is added. -/
theorem isSome_edgeAt_push {states : Array State} {arrow : Arrow}
    (named : (edgeAt states arrow).isSome) (s : State) :
    (edgeAt (states.push s) arrow).isSome := by
  rw [edgeAt_push, if_neg]
  · exact named
  · intro last
    rw [edgeAt_eq_none_of_size_le last.ge] at named
    cases named

theorem Edge.Wired.mono {size size' : Nat} {e : Edge} (wired : e.Wired size)
    (le : size ≤ size') : e.Wired size' := by
  cases e with
  | dangling => exact wired
  | state i => exact Nat.lt_of_lt_of_le wired le
  | accept => trivial

/-- An automaton is wired if all edges that arrows name have a target. -/
theorem Nfa.wired_of_edgeAt {nfa : Nfa} (start : nfa.start.Wired nfa.states.size)
    (edges : ∀ arrow e, edgeAt nfa.states arrow = some e → e.Wired nfa.states.size) :
    nfa.Wired := by
  refine ⟨start, ?_⟩
  intro s member e out
  obtain ⟨i, inTable, rfl⟩ := Array.mem_iff_getElem.mp member
  obtain ⟨slot, same⟩ := State.mem_edges_iff.mp out
  apply edges ⟨i, slot⟩ e
  rw [edgeAt, Array.getElem?_eq_getElem inTable]
  exact same

/-! ## One piece in place of its operands -/

/-- The piece is built from the operands on top of a table.  An edge without a target is
one of its arrows, or it was there before and no operand had an arrow for it. -/
structure Replaces (operands : List Fragment) (states : Array State)
    (built : Fragment × Array State) : Prop where
  grows : states.size ≤ built.2.size
  start : built.1.start < built.2.size
  keeps : ∀ arrow, (edgeAt states arrow).isSome → (edgeAt built.2 arrow).isSome
  arrows : ∀ arrow ∈ built.1.dangling, (edgeAt built.2 arrow).isSome
  edges : ∀ arrow e, edgeAt built.2 arrow = some e →
    e.Wired built.2.size ∨ arrow ∈ built.1.dangling ∨
      edgeAt states arrow = some e ∧ ∀ f ∈ operands, arrow ∉ f.dangling

/-- What is on the stack fits the table. -/
structure Assembly.Coherent (m : Assembly) : Prop where
  starts : ∀ f ∈ m.stack, f.start < m.states.size
  arrows : ∀ f ∈ m.stack, ∀ arrow ∈ f.dangling, (edgeAt m.states arrow).isSome
  edges : ∀ arrow e, edgeAt m.states arrow = some e →
    e.Wired m.states.size ∨ ∃ f ∈ m.stack, arrow ∈ f.dangling

theorem replaces_atom (a : Atom) (states : Array State) :
    Replaces [] states (Fragment.atom a states) where
  grows := by simp [Fragment.atom]
  start := by simp [Fragment.atom]
  keeps arrow named := isSome_edgeAt_push named _
  arrows arrow member := by
    rw [List.mem_singleton.mp member]
    simp [Fragment.atom, edgeAt_push, State.edge?]
  edges arrow e here := by
    obtain ⟨i, slot⟩ := arrow
    simp only [Fragment.atom, edgeAt_push] at here
    split at here
    · rename_i last
      cases slot with
      | first => exact .inr (.inl (List.mem_singleton.mpr (congrArg (Arrow.mk · .first) last)))
      | second => cases here
    · exact .inr (.inr ⟨here, fun f member => absurd member List.not_mem_nil⟩)

section Operands

variable {states : Array State} {stack : List Fragment}

theorem replaces_cat {left right : Fragment}
    (coherent : Assembly.Coherent ⟨states, right :: left :: stack⟩) :
    Replaces [right, left] states (left.cat right states) where
  grows := by simp [Fragment.cat]
  start := by simpa [Fragment.cat] using coherent.starts left (by simp)
  keeps arrow named := by simpa [Fragment.cat, isSome_edgeAt_connect] using named
  arrows arrow member := by
    simpa [Fragment.cat, isSome_edgeAt_connect] using coherent.arrows right (by simp) arrow member
  edges arrow e here := by
    have target : right.start < states.size := coherent.starts right (by simp)
    simp only [Fragment.cat, edgeAt_connect] at here
    split at here
    · obtain ⟨_, _, rfl⟩ := Option.map_eq_some_iff.mp here
      exact .inl (by simpa [Fragment.cat, Edge.Wired] using target)
    · rename_i notLeft
      by_cases ofRight : arrow ∈ right.dangling
      · exact .inr (.inl ofRight)
      · exact .inr (.inr ⟨here, by simp [ofRight, notLeft]⟩)

theorem replaces_alt {left right : Fragment}
    (coherent : Assembly.Coherent ⟨states, right :: left :: stack⟩) :
    Replaces [right, left] states (left.alt right states) where
  grows := by simp [Fragment.alt]
  start := by simp [Fragment.alt]
  keeps arrow named := isSome_edgeAt_push named _
  arrows arrow member := by
    apply isSome_edgeAt_push
    rcases List.mem_append.mp member with member | member
    · exact coherent.arrows left (by simp) arrow member
    · exact coherent.arrows right (by simp) arrow member
  edges arrow e here := by
    have intoLeft : left.start < states.size := coherent.starts left (by simp)
    have intoRight : right.start < states.size := coherent.starts right (by simp)
    simp only [Fragment.alt, edgeAt_push] at here
    split at here
    · left
      cases slot : arrow.slot <;> rw [slot] at here <;> cases here
      · exact Edge.Wired.mono (e := .state left.start) intoLeft (by simp [Fragment.alt])
      · exact Edge.Wired.mono (e := .state right.start) intoRight (by simp [Fragment.alt])
    · by_cases listed : arrow ∈ left.dangling ++ right.dangling
      · exact .inr (.inl listed)
      · refine .inr (.inr ⟨here, ?_⟩)
        simp only [List.mem_append, not_or] at listed
        simp [listed]

/-- The edges of a table with a split whose second edge has no target. -/
theorem edgeAt_push_split {start : Nat} {arrow : Arrow} {e : Edge}
    (here : edgeAt (states.push (.split (.state start) .dangling)) arrow = some e) :
    e = .state start ∨ arrow = ⟨states.size, .second⟩ ∨ edgeAt states arrow = some e := by
  obtain ⟨i, slot⟩ := arrow
  rw [edgeAt_push] at here
  split at here
  · rename_i last
    cases slot with
    | first => exact .inl (Option.some.inj here).symm
    | second => exact .inr (.inl (congrArg (Arrow.mk · .second) last))
  · exact .inr (.inr here)

/-- A piece whose arrows come back to a new split, entered by one or the other. -/
theorem replaces_loop {body : Fragment}
    (coherent : Assembly.Coherent ⟨states, body :: stack⟩) {start : Nat}
    (inTable : start < states.size + 1) :
    Replaces [body] states (⟨start, [⟨states.size, .second⟩]⟩,
      connect (states.push (.split (.state body.start) .dangling)) body.dangling
        (.state states.size)) where
  grows := by simp
  start := by simpa using inTable
  keeps arrow named := by simpa [isSome_edgeAt_connect] using isSome_edgeAt_push named _
  arrows arrow member := by
    rw [List.mem_singleton.mp member, isSome_edgeAt_connect]
    simp [edgeAt_push, State.edge?]
  edges arrow e here := by
    have intoBody : body.start < states.size := coherent.starts body (by simp)
    rw [edgeAt_connect] at here
    split at here
    · obtain ⟨_, _, rfl⟩ := Option.map_eq_some_iff.mp here
      exact .inl (by simp [Edge.Wired])
    · rename_i notBody
      rcases edgeAt_push_split here with rfl | rfl | before
      · exact .inl (Edge.Wired.mono (e := .state body.start) intoBody (by simp))
      · exact .inr (.inl (List.mem_singleton_self _))
      · exact .inr (.inr ⟨before, by simpa using notBody⟩)

theorem replaces_repeated {body : Fragment}
    (coherent : Assembly.Coherent ⟨states, body :: stack⟩) (q : Quantifier) :
    Replaces [body] states (body.repeated q states) := by
  have intoBody : body.start < states.size := coherent.starts body (by simp)
  cases q with
  | oneOrMore => exact replaces_loop coherent (Nat.lt_succ_of_lt intoBody)
  | zeroOrMore => exact replaces_loop coherent (Nat.lt_succ_self _)
  | zeroOrOne =>
      constructor
      · simp [Fragment.repeated]
      · simp [Fragment.repeated]
      · exact fun arrow named => isSome_edgeAt_push named _
      · intro arrow member
        rcases List.mem_append.mp member with member | member
        · exact isSome_edgeAt_push (coherent.arrows body (by simp) arrow member) _
        · rw [List.mem_singleton.mp member]
          simp [Fragment.repeated, edgeAt_push, State.edge?]
      · intro arrow e here
        rcases edgeAt_push_split here with rfl | rfl | before
        · exact .inl (Edge.Wired.mono (e := .state body.start) intoBody
            (by simp [Fragment.repeated]))
        · exact .inr (.inl (List.mem_append_right _ (List.mem_singleton_self _)))
        · by_cases ofBody : arrow ∈ body.dangling
          · exact .inr (.inl (List.mem_append_left _ ofBody))
          · exact .inr (.inr ⟨before, by simpa using ofBody⟩)

/-- **A piece in place of its operands keeps the assembly coherent.** -/
theorem Assembly.Coherent.push (operands : List Fragment) {built : Fragment × Array State}
    (coherent : Assembly.Coherent ⟨states, operands ++ stack⟩)
    (replaces : Replaces operands states built) : (Assembly.push stack built).Coherent where
  starts f member := by
    rcases List.mem_cons.mp member with rfl | member
    · exact replaces.start
    · have before := coherent.starts f (List.mem_append_right operands member)
      exact Nat.lt_of_lt_of_le before replaces.grows
  arrows f member arrow listed := by
    rcases List.mem_cons.mp member with rfl | member
    · exact replaces.arrows arrow listed
    · have before := coherent.arrows f (List.mem_append_right operands member) arrow listed
      exact replaces.keeps arrow before
  edges arrow e here := by
    rcases replaces.edges arrow e here with wired | listed | ⟨before, unlisted⟩
    · exact .inl wired
    · exact .inr ⟨built.1, List.mem_cons_self, listed⟩
    · rcases coherent.edges arrow e before with wired | ⟨f, member, listed⟩
      · exact .inl (wired.mono replaces.grows)
      · have notOperand : f ∉ operands := fun operand => unlisted f operand listed
        have kept := (List.mem_append.mp member).resolve_left notOperand
        exact .inr ⟨f, List.mem_cons_of_mem _ kept, listed⟩

end Operands

/-! ## Every run of the stack machine -/

namespace Assembly

theorem coherent_start : start.Coherent where
  starts f member := absurd member List.not_mem_nil
  arrows f member := absurd member List.not_mem_nil
  edges arrow e here := by
    rw [edgeAt_eq_none_of_size_le (Nat.zero_le _)] at here
    cases here

variable {m next : Assembly}

/-- **Taking in a token keeps the assembly coherent.** -/
theorem Coherent.step (coherent : m.Coherent) {t : Token} (steps : m.step t = .ok next) :
    next.Coherent := by
  obtain ⟨states, stack⟩ := m
  cases t with
  | atom a =>
      cases steps
      exact Coherent.push [] coherent (replaces_atom a states)
  | quantifier q =>
      rcases stack with _ | ⟨body, stack⟩ <;> cases steps
      exact Coherent.push [body] coherent (replaces_repeated coherent q)
  | cat =>
      rcases stack with _ | ⟨right, _ | ⟨left, stack⟩⟩ <;> cases steps
      exact Coherent.push [right, left] coherent (replaces_cat coherent)
  | alt =>
      rcases stack with _ | ⟨right, _ | ⟨left, stack⟩⟩ <;> cases steps
      exact Coherent.push [right, left] coherent (replaces_alt coherent)

/-- A run over a sequence takes in its first token and goes on from there. -/
theorem exists_step_of_run {t : Token} {rest : List Token}
    (runs : m.run (t :: rest) = .ok next) :
    ∃ middle, m.step t = .ok middle ∧ middle.run rest = .ok next := by
  rw [Assembly.run] at runs
  cases steps : m.step t with
  | error e =>
      rw [steps] at runs
      cases runs
  | ok middle =>
      rw [steps] at runs
      exact ⟨middle, rfl, runs⟩

/-- **A run keeps the assembly coherent.** -/
theorem Coherent.run {tokens : List Token} (coherent : m.Coherent)
    (runs : m.run tokens = .ok next) : next.Coherent := by
  induction tokens generalizing m with
  | nil =>
      cases runs
      exact coherent
  | cons t rest ih =>
      obtain ⟨middle, steps, runs⟩ := exists_step_of_run runs
      exact ih (coherent.step steps) runs

/-- **The arrows of the last piece name all the edges without a target.** -/
theorem Coherent.wired_finish {nfa : Nfa} (coherent : m.Coherent)
    (finishes : m.finish = .ok nfa) : nfa.Wired := by
  obtain ⟨states, stack⟩ := m
  rcases stack with _ | ⟨f, _ | ⟨g, stack⟩⟩
  · cases finishes
    refine Nfa.wired_of_edgeAt trivial ?_
    intro arrow e here
    refine (coherent.edges arrow e here).resolve_right ?_
    rintro ⟨f, member, _⟩
    exact absurd member List.not_mem_nil
  · cases finishes
    have intoPiece : f.start < states.size := coherent.starts f List.mem_cons_self
    refine Nfa.wired_of_edgeAt ?_ ?_
    · simpa [Nfa.ofFragment, Edge.Wired] using intoPiece
    · intro arrow e here
      simp only [Nfa.ofFragment, edgeAt_connect, size_connect] at here ⊢
      split at here
      · obtain ⟨_, _, rfl⟩ := Option.map_eq_some_iff.mp here
        trivial
      · rename_i unlisted
        refine (coherent.edges arrow e here).resolve_right ?_
        rintro ⟨g, member, listed⟩
        rw [List.mem_singleton.mp member] at listed
        exact unlisted listed
  · cases finishes

end Assembly

/-- **Every automaton that a postfix sequence builds is wired.** -/
theorem Nfa.wired_ofPostfix {tokens : List Token} {nfa : Nfa}
    (builds : Nfa.ofPostfix tokens = .ok nfa) : nfa.Wired := by
  rw [Nfa.ofPostfix] at builds
  cases runs : Assembly.start.run tokens with
  | error e =>
      rw [runs] at builds
      cases builds
  | ok m =>
      rw [runs] at builds
      exact (Assembly.coherent_start.run runs).wired_finish builds

end RegexAutomaton
