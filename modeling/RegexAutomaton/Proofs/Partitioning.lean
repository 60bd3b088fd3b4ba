import RegexAutomaton.Proofs.Wiring

/-!
# The table is divided among the pieces

While an automaton is put together, every piece on the stack has a block of the table to itself.
The blocks follow one another in the order of the stack, and edges do not leave the block of the
state that they leave.

**One block.** A block comes with the list of its arrows without target, each of them once
(`Block`).  There are three ways to go on from a block: a state is put behind it (`Block.push`),
the next block is joined to it (`Block.join`), or some of its arrows are led to a place within it
(`Block.connect`).  Every way of putting pieces together is made of these.

**All blocks.** A piece owns its block: it is entered there, and its arrows are those of the
block (`Fragment.Owns`).  Taking in a token puts one piece in the place of the topmost ones and
leaves the blocks below as they are, so the pieces go on dividing the table
(`Assembly.Partitioned.step`, `Assembly.Partitioned.run`).
-/

set_option autoImplicit false

namespace RegexAutomaton

/-! ## One block -/

/-- The edge has no target, or leads to a state from `low` up to `high`. -/
def Edge.Within (low high : Nat) : Edge → Prop
  | .dangling => True
  | .state i => low ≤ i ∧ i < high
  | .accept => False

/-- The arrows without target of a state that has the given number. -/
def State.loose (i : Nat) (s : State) : List Arrow :=
  ([.first, .second].filter fun slot => s.edge? slot = some .dangling).map fun slot => ⟨i, slot⟩

/-- The states from `low` up to `high` are a block, and the list holds its arrows without
target. -/
structure Block (states : Array State) (low high : Nat) (arrows : List Arrow) : Prop where
  /-- No edge leads out of the block. -/
  inside : ∀ arrow e, low ≤ arrow.state → arrow.state < high → edgeAt states arrow = some e →
    e.Within low high
  once : arrows.Nodup
  listed : ∀ arrow, arrow ∈ arrows ↔
    (low ≤ arrow.state ∧ arrow.state < high) ∧ edgeAt states arrow = some .dangling
  /-- Where the first edge has no target there is no second one: the state is a test. -/
  tests : ∀ i, low ≤ i → i < high → edgeAt states ⟨i, .first⟩ = some .dangling →
    edgeAt states ⟨i, .second⟩ = none

theorem Edge.Within.mono {low high low' high' : Nat} {e : Edge} (within : e.Within low high)
    (below : low' ≤ low) (above : high ≤ high') : e.Within low' high' := by
  cases e with
  | dangling => exact within
  | state i => exact ⟨below.trans within.1, within.2.trans_le above⟩
  | accept => exact within

theorem State.mem_loose {i : Nat} {s : State} {arrow : Arrow} :
    arrow ∈ s.loose i ↔ arrow.state = i ∧ s.edge? arrow.slot = some .dangling := by
  obtain ⟨j, slot⟩ := arrow
  cases slot <;> simp [loose, eq_comm, and_comm]

theorem State.nodup_loose (i : Nat) (s : State) : (s.loose i).Nodup := by
  refine List.Nodup.map (fun slot slot' same => congrArg Arrow.slot same) ?_
  exact List.Nodup.filter _ (by decide)

/-- An arrow that names an edge leaves a state of the table. -/
theorem state_lt_of_edgeAt {states : Array State} {arrow : Arrow} {e : Edge}
    (here : edgeAt states arrow = some e) : arrow.state < states.size := by
  by_contra outside
  rw [edgeAt_eq_none_of_size_le (Nat.not_lt.mp outside)] at here
  cases here

theorem edgeAt_congr {states states' : Array State} {arrow : Arrow}
    (same : states[arrow.state]? = states'[arrow.state]?) :
    edgeAt states arrow = edgeAt states' arrow := by
  rw [edgeAt, edgeAt, same]

namespace Block

variable {states : Array State} {low middle high : Nat} {arrows more : List Arrow}

theorem empty (states : Array State) (n : Nat) : Block states n n [] where
  inside arrow e above below := absurd below (Nat.not_lt.mpr above)
  once := List.nodup_nil
  listed arrow := by
    simp only [List.not_mem_nil, false_iff, not_and]
    omega
  tests i above below := absurd below (Nat.not_lt.mpr above)

theorem congr {states' : Array State} (block : Block states low high arrows)
    (agree : Agree low high states' states) : Block states' low high arrows where
  inside arrow e above below here := by
    rw [edgeAt_congr (agree _ above below)] at here
    exact block.inside arrow e above below here
  once := block.once
  listed arrow := by
    rw [block.listed]
    refine and_congr_right fun ⟨above, below⟩ => ?_
    rw [edgeAt_congr (agree _ above below)]
  tests i above below := by
    have same : ∀ slot, edgeAt states' ⟨i, slot⟩ = edgeAt states ⟨i, slot⟩ :=
      fun slot => edgeAt_congr (agree i above below)
    rw [same, same]
    exact block.tests i above below

/-- **A state behind a block** makes it longer, if its edges stay inside. -/
theorem push (block : Block states low states.size arrows) (le : low ≤ states.size) {s : State}
    (inside : ∀ slot e, s.edge? slot = some e → e.Within low (states.size + 1))
    (tests : s.edge? .first = some .dangling → s.edge? .second = none) :
    Block (states.push s) low (states.size + 1) (arrows ++ s.loose states.size) where
  inside arrow e above below here := by
    rw [edgeAt_push] at here
    split at here
    · exact inside arrow.slot e here
    · have before := block.inside arrow e above (state_lt_of_edgeAt here) here
      exact before.mono le_rfl (Nat.le_succ _)
  once := by
    refine List.nodup_append.mpr ⟨block.once, s.nodup_loose _, ?_⟩
    rintro arrow before _ behind rfl
    have earlier := ((block.listed arrow).mp before).1.2
    have last := (State.mem_loose.mp behind).1
    omega
  listed arrow := by
    rw [List.mem_append, block.listed, State.mem_loose, edgeAt_push]
    by_cases last : arrow.state = states.size
    · simp [last, le]
    · have earlier : arrow.state < states.size + 1 ↔ arrow.state < states.size := by omega
      simp [last, earlier]
  tests i above below := by
    rw [edgeAt_push, edgeAt_push]
    by_cases last : i = states.size
    · simpa [last] using tests
    · simpa [last] using block.tests i above (by omega)

theorem push_split (block : Block states low states.size arrows) (le : low ≤ states.size) {i : Nat}
    (first : low ≤ i ∧ i < states.size) (second : Edge) (within : second.Within low states.size) :
    Block (states.push (.split (.state i) second)) low (states.size + 1)
      (arrows ++ (State.split (.state i) second).loose states.size) := by
  refine block.push le ?_ fun loose => by cases loose
  rintro (_ | _) e here <;> cases here
  · exact Edge.Within.mono (e := .state i) first le_rfl (Nat.le_succ _)
  · exact within.mono le_rfl (Nat.le_succ _)

/-- **Two blocks, one after the other, are one block.** -/
theorem join (left : Block states low middle arrows) (right : Block states middle high more)
    (first : low ≤ middle) (second : middle ≤ high) : Block states low high (arrows ++ more) where
  inside arrow e above below here := by
    by_cases inLeft : arrow.state < middle
    · exact (left.inside arrow e above inLeft here).mono le_rfl second
    · exact (right.inside arrow e (Nat.not_lt.mp inLeft) below here).mono first le_rfl
  once := by
    refine List.nodup_append.mpr ⟨left.once, right.once, ?_⟩
    rintro arrow inLeft _ inRight rfl
    have below := ((left.listed arrow).mp inLeft).1.2
    have above := ((right.listed arrow).mp inRight).1.1
    omega
  listed arrow := by
    rw [List.mem_append, left.listed, right.listed, ← or_and_right]
    refine and_congr_left fun _ => ?_
    omega
  tests i above below := by
    by_cases inLeft : i < middle
    · exact left.tests i above inLeft
    · exact right.tests i (Nat.not_lt.mp inLeft) below

/-- **Arrows that are led to a place within the block** are no longer without target. -/
theorem connect (block : Block states low high (arrows ++ more)) {i : Nat} (above : low ≤ i)
    (below : i < high) : Block (connect states arrows (.state i)) low high more where
  inside arrow e aboveArrow belowArrow here := by
    rw [edgeAt_connect] at here
    split at here
    · obtain ⟨_, _, rfl⟩ := Option.map_eq_some_iff.mp here
      exact ⟨above, below⟩
    · exact block.inside arrow e aboveArrow belowArrow here
  once := (List.nodup_append.mp block.once).2.1
  listed arrow := by
    rw [edgeAt_connect]
    by_cases led : arrow ∈ arrows
    · have notMore : arrow ∉ more := fun inMore =>
        (List.nodup_append.mp block.once).2.2 arrow led arrow inMore rfl
      simp [led, notMore]
    · have listed := block.listed arrow
      simpa [led] using listed
  tests j aboveState belowState loose := by
    rw [edgeAt_connect] at loose ⊢
    have before : edgeAt states ⟨j, .first⟩ = some .dangling := by
      split at loose
      · simp at loose
      · exact loose
    rw [block.tests j aboveState belowState before]
    split <;> rfl

/-- **An arrow of a block** is the only one of a test, or the second one of a split. -/
theorem slot_cases (block : Block states low high arrows) {arrow : Arrow}
    (member : arrow ∈ arrows) :
    (∃ a, states[arrow.state]? = some (.test a .dangling) ∧ arrow.slot = .first) ∨
      ∃ i, states[arrow.state]? = some (.split (.state i) .dangling) ∧ arrow.slot = .second := by
  obtain ⟨i, slot⟩ := arrow
  obtain ⟨⟨above, below⟩, loose⟩ := (block.listed _).mp member
  obtain ⟨s, here, edge⟩ := Option.bind_eq_some_iff.mp loose
  have named : ∀ slot', edgeAt states ⟨i, slot'⟩ = s.edge? slot' := fun slot' => by
    rw [edgeAt, here, Option.bind_some]
  have tests := block.tests i above below
  rw [named, named] at tests
  cases s with
  | test a out =>
      cases slot with
      | first =>
          obtain rfl : out = .dangling := Option.some.inj edge
          exact .inl ⟨a, here, rfl⟩
      | second => cases edge
  | split first second =>
      have inside := block.inside ⟨i, .first⟩ first above below (named .first)
      cases first with
      | dangling => cases tests rfl
      | accept => exact absurd inside id
      | state j =>
          cases slot with
          | first => cases edge
          | second =>
              obtain rfl : second = .dangling := Option.some.inj edge
              exact .inr ⟨j, here, rfl⟩

end Block

/-! ## The block of a piece -/

/-- The piece is entered within the block, which therefore is not empty, and its arrows are those
of the block.  There is at least one. -/
structure Fragment.Owns (f : Fragment) (states : Array State) (low high : Nat) : Prop where
  start : low ≤ f.start ∧ f.start < high
  leaves : f.dangling ≠ []
  block : Block states low high f.dangling

theorem Fragment.Owns.lt {f : Fragment} {states : Array State} {low high : Nat}
    (owns : f.Owns states low high) : low < high :=
  owns.start.1.trans_lt owns.start.2

theorem Fragment.Owns.above {f : Fragment} {states : Array State} {low high : Nat}
    (owns : f.Owns states low high) : ∀ arrow ∈ f.dangling, low ≤ arrow.state :=
  fun arrow member => ((owns.block.listed arrow).mp member).1.1

theorem owns_atom (a : Atom) (states : Array State) :
    (Fragment.atom a states).1.Owns (Fragment.atom a states).2 states.size (states.size + 1) where
  start := ⟨le_rfl, Nat.lt_succ_self _⟩
  leaves := List.cons_ne_nil _ _
  block := by
    refine (Block.empty states states.size).push le_rfl ?_ fun _ => rfl
    rintro (_ | _) e here
    · cases here
      trivial
    · cases here

section Operands

variable {states : Array State} {low middle high : Nat} {left right body : Fragment}

theorem owns_cat (inLeft : left.Owns states low middle) (inRight : right.Owns states middle high) :
    (left.cat right states).1.Owns (left.cat right states).2 low high where
  start := ⟨inLeft.start.1, inLeft.start.2.trans inRight.lt⟩
  leaves := inRight.leaves
  block := (inLeft.block.join inRight.block inLeft.lt.le inRight.lt.le).connect
    (inLeft.lt.le.trans inRight.start.1) inRight.start.2

theorem owns_alt (inLeft : left.Owns states low middle)
    (inRight : right.Owns states middle states.size) :
    (left.alt right states).1.Owns (left.alt right states).2 low (states.size + 1) where
  start := ⟨(inLeft.lt.trans inRight.lt).le, Nat.lt_succ_self _⟩
  leaves := List.append_ne_nil_of_left_ne_nil inLeft.leaves _
  block := by
    have pair := inLeft.block.join inRight.block inLeft.lt.le inRight.lt.le
    have grown := pair.push_split (inLeft.lt.trans inRight.lt).le
      ⟨inLeft.start.1, inLeft.start.2.trans inRight.lt⟩ (.state right.start)
      ⟨inLeft.lt.le.trans inRight.start.1, inRight.start.2⟩
    have complete : (State.split (.state left.start) (.state right.start)).loose states.size = [] :=
      rfl
    rwa [complete, List.append_nil] at grown

/-- The arrows that leave a piece are led back to a new split, which is left past the piece. -/
theorem block_loop (inBody : body.Owns states low states.size) :
    Block (connect (states.push (.split (.state body.start) .dangling)) body.dangling
      (.state states.size)) low (states.size + 1) [⟨states.size, .second⟩] :=
  (inBody.block.push_split inBody.lt.le inBody.start .dangling trivial).connect inBody.lt.le
    (Nat.lt_succ_self _)

theorem owns_repeated (inBody : body.Owns states low states.size) (q : Quantifier) :
    (body.repeated q states).1.Owns (body.repeated q states).2 low (states.size + 1) := by
  have split : low ≤ states.size ∧ states.size < states.size + 1 :=
    ⟨inBody.lt.le, Nat.lt_succ_self _⟩
  cases q with
  | oneOrMore =>
      have entry : low ≤ body.start ∧ body.start < states.size + 1 :=
        ⟨inBody.start.1, inBody.start.2.trans split.2⟩
      exact ⟨entry, List.cons_ne_nil _ _, block_loop inBody⟩
  | zeroOrMore => exact ⟨split, List.cons_ne_nil _ _, block_loop inBody⟩
  | zeroOrOne =>
      exact ⟨split, List.append_ne_nil_of_left_ne_nil inBody.leaves _,
        inBody.block.push_split inBody.lt.le inBody.start .dangling trivial⟩

end Operands

/-! ## All blocks -/

/-- The pieces own blocks that follow one another, the latest piece the last one, and make up the
table up to `high`. -/
inductive Partition (states : Array State) : List Fragment → Nat → Prop where
  | nil : Partition states [] 0
  | cons {f : Fragment} {earlier : List Fragment} {low high : Nat}
      (before : Partition states earlier low) (owns : f.Owns states low high) :
      Partition states (f :: earlier) high

/-- The pieces on the stack divide the table among them. -/
def Assembly.Partitioned (m : Assembly) : Prop := Partition m.states m.stack m.states.size

theorem Partition.congr {states states' : Array State} {stack : List Fragment} {high : Nat}
    (partition : Partition states stack high) (agree : Agree 0 high states' states) :
    Partition states' stack high := by
  induction partition with
  | nil => exact .nil
  | @cons f earlier low high before owns ih =>
      have below : Agree 0 low states' states := fun i _ hi => agree i (Nat.zero_le i)
        (hi.trans owns.lt)
      have here : Agree low high states' states := fun i _ hi => agree i (Nat.zero_le i) hi
      exact .cons (ih below) ⟨owns.start, owns.leaves, owns.block.congr here⟩

theorem Partition.exists_owns {states : Array State} {stack : List Fragment} {high : Nat}
    (partition : Partition states stack high) {f : Fragment} (member : f ∈ stack) :
    ∃ low high, f.Owns states low high := by
  induction partition with
  | nil => cases member
  | cons _ owns ih =>
      rcases List.mem_cons.mp member with rfl | member
      · exact ⟨_, _, owns⟩
      · exact ih member

section Below

variable {states : Array State} {low : Nat} {left right body : Fragment}

theorem agree_push_below (s : State) (le : low ≤ states.size) :
    Agree 0 low (states.push s) states :=
  fun i _ below => (keeps_push states s).2 i (below.trans_le le)

theorem agree_connect_below {arrows : List Arrow} (above : ∀ arrow ∈ arrows, low ≤ arrow.state)
    (target : Edge) : Agree 0 low (connect states arrows target) states := by
  intro i _ below
  refine getElem?_connect_of_ne (fun arrow member => ?_) states target
  have := above arrow member
  omega

theorem agree_repeated_below (inBody : body.Owns states low states.size) (q : Quantifier) :
    Agree 0 low (body.repeated q states).2 states := by
  have pushed := agree_push_below (.split (.state body.start) .dangling) inBody.lt.le
  have looped : Agree 0 low (connect (states.push (.split (.state body.start) .dangling))
      body.dangling (.state states.size)) states := fun i above below =>
    (agree_connect_below inBody.above _ i above below).trans (pushed i above below)
  cases q with
  | oneOrMore => exact looped
  | zeroOrMore => exact looped
  | zeroOrOne => exact pushed

end Below

namespace Assembly

variable {m next : Assembly}

/-- A piece that owns the table from some place on, built without a change below, divides it with
the pieces that divided it up to there. -/
theorem partitioned_push {states : Array State} {stack : List Fragment} {low high : Nat}
    {built : Fragment × Array State} (before : Partition states stack low)
    (owns : built.1.Owns built.2 low high) (agree : Agree 0 low built.2 states)
    (size : built.2.size = high) : (push stack built).Partitioned := by
  subst size
  exact .cons (before.congr agree) owns

theorem partitioned_start : start.Partitioned := .nil

/-- **Taking in a token keeps the table divided.** -/
theorem Partitioned.step (partitioned : m.Partitioned) {t : Token} (steps : m.step t = .ok next) :
    next.Partitioned := by
  obtain ⟨states, stack⟩ := m
  cases t with
  | atom a =>
      cases steps
      exact partitioned_push partitioned (owns_atom a states) (agree_push_below _ le_rfl)
        (by simp [Fragment.atom])
  | quantifier q =>
      rcases stack with _ | ⟨body, stack⟩ <;> cases steps
      obtain _ | ⟨before, inBody⟩ := partitioned
      exact partitioned_push before (owns_repeated inBody q) (agree_repeated_below inBody q)
        (by cases q <;> simp [Fragment.repeated])
  | cat =>
      rcases stack with _ | ⟨right, _ | ⟨left, stack⟩⟩ <;> cases steps
      obtain _ | ⟨_ | ⟨before, inLeft⟩, inRight⟩ := partitioned
      exact partitioned_push before (owns_cat inLeft inRight) (agree_connect_below inLeft.above _)
        (by simp [Fragment.cat])
  | alt =>
      rcases stack with _ | ⟨right, _ | ⟨left, stack⟩⟩ <;> cases steps
      obtain _ | ⟨_ | ⟨before, inLeft⟩, inRight⟩ := partitioned
      exact partitioned_push before (owns_alt inLeft inRight)
        (agree_push_below _ (inLeft.lt.trans inRight.lt).le) (by simp [Fragment.alt])

/-- **After every run the pieces on the stack divide the table.** -/
theorem Partitioned.run {tokens : List Token} (partitioned : m.Partitioned)
    (runs : m.run tokens = .ok next) : next.Partitioned := by
  induction tokens generalizing m with
  | nil =>
      cases runs
      exact partitioned
  | cons t rest ih =>
      obtain ⟨middle, steps, runs⟩ := exists_step_of_run runs
      exact ih (partitioned.step steps) runs

end Assembly

end RegexAutomaton
