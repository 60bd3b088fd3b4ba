import RegexAutomaton.Nfa.Assembly
import RegexAutomaton.Proofs.Exploration
import RegexAutomaton.Proofs.Language

/-!
# The construction preserves the language

A piece of an automaton occupies a block of the table and is entered by one of its
states.  It denotes a language `l` when in every table that agrees with the block,
its arrows led to some exit, the words accepted from the entry are the words of `l`
followed by those accepted from the exit (`Fragment.Denotes`).  The exit may lie
anywhere, in particular in a loop back to the piece itself, which is what a
repetition makes of it.

**Loops.** One inclusion follows the words and needs no measure.  For the other one a
path through a loop has to become shorter each time it comes around, although its word
need not.  It is therefore stated of the words accepted within a number of states
crossed (`acceptedWithin`), and every piece costs at least one.

**Result.** The piece assembled for an expression denotes its language
(`Expr.builds_assemble`).  So the automaton of its postfix form exists and accepts
exactly its words (`Nfa.run_ofPostfix`).
-/

set_option autoImplicit false

namespace RegexAutomaton

open Computability

/-! ## The words accepted from an edge -/

/-- The words that lead from an edge to acceptance. -/
def accepted (states : Array State) (e : Edge) : Language Char :=
  show Set (List Char) from {word | Path states .accept e word}

/-- The words that lead from an edge to acceptance across at most `n` states. -/
def acceptedWithin (states : Array State) : Nat → Edge → Language Char
  | _, .dangling => 0
  | _, .accept => 1
  | 0, .state _ => 0
  | n + 1, .state i =>
    match states[i]? with
    | none => 0
    | some (.test a out) => a.language * acceptedWithin states n out
    | some (.split first second) => acceptedWithin states n first + acceptedWithin states n second

section Accepted

variable {states : Array State} {i : Nat} {a : Atom} {out first second : Edge}

theorem mem_accepted {e : Edge} {word : List Char} :
    word ∈ accepted states e ↔ Path states .accept e word := Iff.rfl

theorem accepted_accept : accepted states .accept = 1 := by
  ext word
  rw [mem_accepted, Language.mem_one]
  constructor
  · intro path
    cases path
    rfl
  · rintro rfl
    exact .arrive

theorem accepted_test (here : states[i]? = some (.test a out)) :
    accepted states (.state i) = a.language * accepted states out := by
  ext word
  rw [mem_accepted, Language.mem_mul]
  constructor
  · intro path
    cases path with
    | consume there accepts rest =>
        rw [here] at there
        cases there
        exact ⟨[_], ⟨_, accepts, rfl⟩, _, rest, rfl⟩
    | first there _ => simp [here] at there
    | second there _ => simp [here] at there
  · rintro ⟨_, ⟨c, accepts, rfl⟩, rest, path, rfl⟩
    exact .consume here accepts path

theorem accepted_split (here : states[i]? = some (.split first second)) :
    accepted states (.state i) = accepted states first + accepted states second := by
  ext word
  rw [mem_accepted, Language.mem_add]
  constructor
  · intro path
    cases path with
    | consume there _ _ => simp [here] at there
    | first there rest =>
        rw [here] at there
        cases there
        exact .inl rest
    | second there rest =>
        rw [here] at there
        cases there
        exact .inr rest
  · rintro (path | path)
    · exact .first here path
    · exact .second here path

theorem acceptedWithin_test (n : Nat) (here : states[i]? = some (.test a out)) :
    acceptedWithin states (n + 1) (.state i) = a.language * acceptedWithin states n out := by
  rw [acceptedWithin, here]

theorem acceptedWithin_split (n : Nat) (here : states[i]? = some (.split first second)) :
    acceptedWithin states (n + 1) (.state i) =
      acceptedWithin states n first + acceptedWithin states n second := by
  rw [acceptedWithin, here]

theorem acceptedWithin_le_succ (states : Array State) (n : Nat) (e : Edge) :
    acceptedWithin states n e ≤ acceptedWithin states (n + 1) e := by
  induction n generalizing e with
  | zero => cases e <;> simp [acceptedWithin]
  | succ n ih =>
      cases e with
      | dangling => simp [acceptedWithin]
      | accept => simp [acceptedWithin]
      | state i =>
          cases here : states[i]? with
          | none => simp [acceptedWithin, here]
          | some s =>
              cases s with
              | test a out =>
                  rw [acceptedWithin_test n here, acceptedWithin_test (n + 1) here]
                  gcongr
                  exact ih out
              | split first second =>
                  rw [acceptedWithin_split n here, acceptedWithin_split (n + 1) here]
                  exact add_le_add (ih first) (ih second)

/-- Every path crosses some number of states. -/
theorem exists_mem_acceptedWithin {e : Edge} {word : List Char}
    (path : Path states .accept e word) : ∃ n, word ∈ acceptedWithin states n e := by
  induction path with
  | arrive => exact ⟨0, by simp [acceptedWithin]⟩
  | consume here accepts _ ih =>
      obtain ⟨n, member⟩ := ih
      refine ⟨n + 1, ?_⟩
      rw [acceptedWithin_test n here]
      exact ⟨_, ⟨_, accepts, rfl⟩, _, member, rfl⟩
  | first here _ ih =>
      obtain ⟨n, member⟩ := ih
      refine ⟨n + 1, ?_⟩
      rw [acceptedWithin_split n here]
      exact .inl member
  | second here _ ih =>
      obtain ⟨n, member⟩ := ih
      refine ⟨n + 1, ?_⟩
      rw [acceptedWithin_split n here]
      exact .inr member

end Accepted

/-! ## Tables that agree on a block -/

/-- The tables hold the same states from `low` up to `high`. -/
def Agree (low high : Nat) (table table' : Array State) : Prop :=
  ∀ i, low ≤ i → i < high → table[i]? = table'[i]?

theorem getElem?_setArrow (target : Edge) (states : Array State) (arrow : Arrow) (i : Nat) :
    (setArrow target states arrow)[i]? =
      if arrow.state = i then states[i]?.map fun s => s.setEdge target arrow.slot
      else states[i]? := by
  rw [setArrow, Array.getElem?_modify]

/-- Leading arrows elsewhere leaves a state alone. -/
theorem getElem?_connect_of_ne {arrows : List Arrow} {i : Nat}
    (elsewhere : ∀ arrow ∈ arrows, arrow.state ≠ i) (states : Array State) (target : Edge) :
    (connect states arrows target)[i]? = states[i]? := by
  induction arrows generalizing states with
  | nil => rfl
  | cons arrow arrows ih =>
      have others := fun a ha => elsewhere a (List.mem_cons_of_mem arrow ha)
      rw [connect, List.foldl_cons]
      refine (ih others _).trans ?_
      rw [getElem?_setArrow, if_neg (elsewhere arrow List.mem_cons_self)]

/-- What becomes of a state depends on that state alone. -/
theorem getElem?_connect_congr {states states' : Array State} {i : Nat}
    (same : states[i]? = states'[i]?) (arrows : List Arrow) (target : Edge) :
    (connect states arrows target)[i]? = (connect states' arrows target)[i]? := by
  induction arrows generalizing states states' with
  | nil => exact same
  | cons arrow arrows ih =>
      rw [connect, connect, List.foldl_cons, List.foldl_cons]
      apply ih
      rw [getElem?_setArrow, getElem?_setArrow, same]

theorem connect_append (states : Array State) (arrows more : List Arrow) (target : Edge) :
    connect states (arrows ++ more) target = connect (connect states arrows target) more target :=
  List.foldl_append

/-- The first table is kept and maybe followed by more states. -/
def Keeps (states grown : Array State) : Prop :=
  states.size ≤ grown.size ∧ ∀ i, i < states.size → grown[i]? = states[i]?

theorem Keeps.trans {first second third : Array State} (before : Keeps first second)
    (after : Keeps second third) : Keeps first third :=
  ⟨before.1.trans after.1, fun i hi =>
    (after.2 i (hi.trans_le before.1)).trans (before.2 i hi)⟩

theorem Keeps.refl (states : Array State) : Keeps states states :=
  ⟨Nat.le_refl _, fun _ _ => rfl⟩

theorem keeps_push (states : Array State) (s : State) : Keeps states (states.push s) := by
  refine ⟨by simp, ?_⟩
  intro i hi
  rw [Array.getElem?_push, if_neg (Nat.ne_of_lt hi)]

theorem Keeps.after_connect {states grown : Array State} (keeps : Keeps states grown)
    {arrows : List Arrow} (new : ∀ arrow ∈ arrows, states.size ≤ arrow.state) (target : Edge) :
    Keeps states (connect grown arrows target) := by
  refine ⟨by simpa using keeps.1, ?_⟩
  intro i hi
  have elsewhere : ∀ arrow ∈ arrows, arrow.state ≠ i := by
    intro arrow member
    have := new arrow member
    omega
  rw [getElem?_connect_of_ne elsewhere, keeps.2 i hi]

/-! ## What a piece denotes -/

/-- In every table that agrees with the block from `low` on, with the arrows of the piece
led to the exit, the piece stands for a word of `l` on the way to the exit. -/
structure Fragment.Denotes (f : Fragment) (states : Array State) (low : Nat)
    (l : Language Char) : Prop where
  bounded : ∀ {table : Array State} {exit : Edge},
    Agree low states.size table (connect states f.dangling exit) → ∀ n,
      acceptedWithin table (n + 1) (.state f.start) ≤ l * acceptedWithin table n exit
  complete : ∀ {table : Array State} {exit : Edge},
    Agree low states.size table (connect states f.dangling exit) →
      l * accepted table exit ≤ accepted table (.state f.start)

/-- A piece built on top of a table: its arrows leave states of the new block, and it
denotes the language. -/
structure Builds (l : Language Char) (states : Array State)
    (built : Fragment × Array State) : Prop where
  keeps : Keeps states built.2
  arrows : ∀ arrow ∈ built.1.dangling, states.size ≤ arrow.state ∧ arrow.state < built.2.size
  denotes : built.1.Denotes built.2 states.size l

/-- The state of a piece for an atom leads to the exit. -/
theorem agree_atom {a : Atom} {states table : Array State} {exit : Edge}
    (agree : Agree states.size (states.push (.test a .dangling)).size table
      (connect (states.push (.test a .dangling)) [⟨states.size, .first⟩] exit)) :
    table[states.size]? = some (.test a exit) := by
  rw [agree states.size (Nat.le_refl _) (by simp), connect, List.foldl_cons, List.foldl_nil,
    getElem?_setArrow]
  simp [State.setEdge]

theorem builds_atom (a : Atom) (states : Array State) :
    Builds a.language states (Fragment.atom a states) := by
  constructor
  · exact keeps_push states _
  · simp [Fragment.atom]
  · exact ⟨fun agree n => (acceptedWithin_test n (agree_atom agree)).le,
      fun agree => (accepted_test (agree_atom agree)).ge⟩

/-- A block stays as it was when more is built on top of it, and arrows of what is on top
are led somewhere. -/
theorem Keeps.agree {middle top table : Array State} (keeps : Keeps middle top)
    {arrows more : List Arrow} (above : ∀ arrow ∈ more, middle.size ≤ arrow.state)
    {target exit : Edge} {low high : Nat} (le : middle.size ≤ high)
    (agree : Agree low high table (connect (connect top arrows target) more exit)) :
    Agree low middle.size table (connect middle arrows target) := by
  intro i low hi
  rw [agree i low (hi.trans_le le), getElem?_connect_of_ne]
  · exact getElem?_connect_congr (keeps.2 i hi) _ _
  · intro arrow member
    have := above arrow member
    omega

section Pairs

variable {l r : Language Char} {states middle grown : Array State} {left right : Fragment}

/-- The right piece is not touched when the arrows of the left one are led somewhere. -/
theorem Builds.agree_right (first : Builds l states (left, middle))
    {top table : Array State} (keeps : Keeps grown top) {target exit : Edge} {high : Nat}
    (le : grown.size ≤ high)
    (agree : Agree states.size high table
      (connect (connect top left.dangling target) right.dangling exit)) :
    Agree middle.size grown.size table (connect grown right.dangling exit) := by
  intro i low hi
  rw [agree i (first.keeps.1.trans low) (hi.trans_le le)]
  refine getElem?_connect_congr ?_ _ _
  rw [getElem?_connect_of_ne, keeps.2 i hi]
  intro arrow member
  have below : arrow.state < middle.size := (first.arrows arrow member).2
  omega

/-- Two pieces, one after the other, are as before, with the left one led to the right one. -/
theorem agree_cat (first : Builds l states (left, middle)) (second : Builds r middle (right, grown))
    {table : Array State} {exit : Edge}
    (agree : Agree states.size (left.cat right grown).2.size table
      (connect (left.cat right grown).2 right.dangling exit)) :
    Agree states.size middle.size table (connect middle left.dangling (.state right.start)) ∧
      Agree middle.size grown.size table (connect grown right.dangling exit) := by
  have above := fun arrow member => (second.arrows arrow member).1
  simp only [Fragment.cat, size_connect] at agree
  exact ⟨second.keeps.agree above second.keeps.1 agree,
    first.agree_right (.refl grown) le_rfl agree⟩

theorem builds_cat (first : Builds l states (left, middle))
    (second : Builds r middle (right, grown)) :
    Builds (l * r) states (left.cat right grown) := by
  constructor
  · exact (first.keeps.trans second.keeps).after_connect (fun arrow member =>
      (first.arrows arrow member).1) _
  · intro arrow member
    have inBlock := second.arrows arrow member
    have le := first.keeps.1
    simp only [Fragment.cat, size_connect] at le inBlock ⊢
    omega
  · constructor
    · intro table exit agree n
      obtain ⟨agreeLeft, agreeRight⟩ := agree_cat first second agree
      have inLeft := first.denotes.bounded agreeLeft n
      have inRight := second.denotes.bounded agreeRight n
      calc acceptedWithin table (n + 1) (.state left.start)
        _ ≤ l * acceptedWithin table n (.state right.start) := inLeft
        _ ≤ l * acceptedWithin table (n + 1) (.state right.start) := by
            gcongr
            exact acceptedWithin_le_succ table n _
        _ ≤ l * (r * acceptedWithin table n exit) := by gcongr
        _ = l * r * acceptedWithin table n exit := (mul_assoc ..).symm
    · intro table exit agree
      obtain ⟨agreeLeft, agreeRight⟩ := agree_cat first second agree
      have inLeft := first.denotes.complete agreeLeft
      have inRight := second.denotes.complete agreeRight
      calc l * r * accepted table exit
        _ = l * (r * accepted table exit) := mul_assoc ..
        _ ≤ l * accepted table (.state right.start) := by gcongr
        _ ≤ accepted table (.state left.start) := inLeft

/-- The arrows of two pieces leave states of the two blocks. -/
theorem Builds.arrows_append (first : Builds l states (left, middle))
    (second : Builds r middle (right, grown)) :
    ∀ arrow ∈ left.dangling ++ right.dangling,
      states.size ≤ arrow.state ∧ arrow.state < grown.size := by
  have sizes : states.size ≤ middle.size ∧ middle.size ≤ grown.size :=
    ⟨first.keeps.1, second.keeps.1⟩
  intro arrow member
  rcases List.mem_append.mp member with member | member
  · have here := first.arrows arrow member
    simp only at here
    omega
  · have here := second.arrows arrow member
    simp only at here
    omega

/-- Two pieces under a split are as before, and the split leads into them. -/
theorem agree_alt (first : Builds l states (left, middle)) (second : Builds r middle (right, grown))
    {table : Array State} {exit : Edge}
    (agree : Agree states.size (left.alt right grown).2.size table
      (connect (left.alt right grown).2 (left.alt right grown).1.dangling exit)) :
    table[grown.size]? = some (.split (.state left.start) (.state right.start)) ∧
      Agree states.size middle.size table (connect middle left.dangling exit) ∧
      Agree middle.size grown.size table (connect grown right.dangling exit) := by
  have above := fun arrow member => (second.arrows arrow member).1
  have keeps := keeps_push grown (.split (.state left.start) (.state right.start))
  have sizes : states.size ≤ middle.size ∧ middle.size ≤ grown.size :=
    ⟨first.keeps.1, second.keeps.1⟩
  simp only [Fragment.alt, Array.size_push] at agree
  refine ⟨?_, ?_, ?_⟩
  · rw [agree grown.size (by omega) (by omega), getElem?_connect_of_ne]
    · simp
    · intro arrow member
      have := first.arrows_append second arrow member
      omega
  · rw [connect_append] at agree
    exact (second.keeps.trans keeps).agree above (by omega) agree
  · rw [connect_append] at agree
    exact first.agree_right keeps (by omega) agree

theorem builds_alt (first : Builds l states (left, middle))
    (second : Builds r middle (right, grown)) :
    Builds (l + r) states (left.alt right grown) := by
  have keeps := keeps_push grown (.split (.state left.start) (.state right.start))
  constructor
  · exact (first.keeps.trans second.keeps).trans keeps
  · intro arrow member
    have := first.arrows_append second arrow member
    simp only [Fragment.alt, Array.size_push]
    omega
  · constructor
    · intro table exit agree n
      obtain ⟨split, agreeLeft, agreeRight⟩ := agree_alt first second agree
      have inLeft := first.denotes.bounded agreeLeft n
      have inRight := second.denotes.bounded agreeRight n
      calc acceptedWithin table (n + 1) (.state grown.size)
        _ = acceptedWithin table n (.state left.start) +
              acceptedWithin table n (.state right.start) := acceptedWithin_split n split
        _ ≤ acceptedWithin table (n + 1) (.state left.start) +
              acceptedWithin table (n + 1) (.state right.start) :=
            add_le_add (acceptedWithin_le_succ table n _) (acceptedWithin_le_succ table n _)
        _ ≤ l * acceptedWithin table n exit + r * acceptedWithin table n exit :=
            add_le_add inLeft inRight
        _ = (l + r) * acceptedWithin table n exit := (add_mul ..).symm
    · intro table exit agree
      obtain ⟨split, agreeLeft, agreeRight⟩ := agree_alt first second agree
      have inLeft := first.denotes.complete agreeLeft
      have inRight := second.denotes.complete agreeRight
      calc (l + r) * accepted table exit
        _ = l * accepted table exit + r * accepted table exit := add_mul ..
        _ ≤ accepted table (.state left.start) + accepted table (.state right.start) :=
            add_le_add inLeft inRight
        _ = accepted table (.state grown.size) := (accepted_split split).symm

end Pairs

/-! ## Loops -/

section Loops

variable {l : Language Char} {table : Array State} {i body : Nat} {exit : Edge}

theorem acceptedWithin_loop_succ (here : table[i]? = some (.split (.state body) exit))
    (around : ∀ n,
      acceptedWithin table (n + 1) (.state body) ≤ l * acceptedWithin table n (.state i))
    {n : Nat} (before : acceptedWithin table n (.state i) ≤ l∗ * acceptedWithin table n exit) :
    acceptedWithin table (n + 1) (.state i) ≤ l∗ * acceptedWithin table n exit :=
  calc acceptedWithin table (n + 1) (.state i)
    _ = acceptedWithin table n (.state body) + acceptedWithin table n exit :=
        acceptedWithin_split n here
    _ ≤ l * (l∗ * acceptedWithin table n exit) + acceptedWithin table n exit := by
        gcongr
        calc acceptedWithin table n (.state body)
          _ ≤ acceptedWithin table (n + 1) (.state body) := acceptedWithin_le_succ table n _
          _ ≤ l * acceptedWithin table n (.state i) := around n
          _ ≤ l * (l∗ * acceptedWithin table n exit) := by gcongr
    _ = l∗ * acceptedWithin table n exit := by
        rw [← mul_assoc, ← add_one_mul, add_comm, one_add_mul_kstar]

/-- A loop that takes a word of `l` each time around is left after any number of them. -/
theorem acceptedWithin_loop (here : table[i]? = some (.split (.state body) exit))
    (around : ∀ n,
      acceptedWithin table (n + 1) (.state body) ≤ l * acceptedWithin table n (.state i))
    (n : Nat) : acceptedWithin table n (.state i) ≤ l∗ * acceptedWithin table n exit := by
  induction n with
  | zero => simp [acceptedWithin]
  | succ n ih =>
      calc acceptedWithin table (n + 1) (.state i)
        _ ≤ l∗ * acceptedWithin table n exit := acceptedWithin_loop_succ here around ih
        _ ≤ l∗ * acceptedWithin table (n + 1) exit := by
            gcongr
            exact acceptedWithin_le_succ table n exit

theorem kstar_mul_accepted_le (here : table[i]? = some (.split (.state body) exit))
    (around : l * accepted table (.state i) ≤ accepted table (.state body)) :
    l∗ * accepted table exit ≤ accepted table (.state i) := by
  have leave := accepted_split here
  apply kstar_mul_le
  · rw [leave]
    exact le_add_self
  · apply around.trans
    rw [leave]
    exact le_self_add

end Loops

section Repeated

variable {l : Language Char} {states middle table : Array State} {body : Fragment}

/-- The split on top of a repeated piece leads into the piece or to the exit, and the
piece itself is as before. -/
theorem agree_repeated {target exit : Edge} (first : Builds l states (body, middle))
    (agree : Agree states.size (middle.size + 1) table
      (connect (connect (middle.push (.split (.state body.start) .dangling)) body.dangling target)
        [⟨middle.size, .second⟩] exit)) :
    table[middle.size]? = some (.split (.state body.start) exit) ∧
      Agree states.size middle.size table (connect middle body.dangling target) := by
  constructor
  · have elsewhere : ∀ arrow ∈ body.dangling, arrow.state ≠ middle.size :=
      fun arrow member => Nat.ne_of_lt (first.arrows arrow member).2
    rw [agree middle.size first.keeps.1 (Nat.lt_succ_self _), connect, List.foldl_cons,
      List.foldl_nil, getElem?_setArrow, getElem?_connect_of_ne elsewhere]
    simp [State.setEdge]
  · exact (keeps_push middle _).agree (by simp) (Nat.le_succ _) agree

theorem denotes_oneOrMore (first : Builds l states (body, middle)) :
    (body.repeated .oneOrMore middle).1.Denotes (body.repeated .oneOrMore middle).2 states.size
      (l * l∗) := by
  constructor
  · intro table exit agree n
    simp only [Fragment.repeated, size_connect, Array.size_push] at agree
    obtain ⟨here, inner⟩ := agree_repeated first agree
    have around := first.denotes.bounded inner
    calc acceptedWithin table (n + 1) (.state body.start)
      _ ≤ l * acceptedWithin table n (.state middle.size) := around n
      _ ≤ l * (l∗ * acceptedWithin table n exit) := by
          gcongr
          exact acceptedWithin_loop here around n
      _ = l * l∗ * acceptedWithin table n exit := (mul_assoc ..).symm
  · intro table exit agree
    simp only [Fragment.repeated, size_connect, Array.size_push] at agree
    obtain ⟨here, inner⟩ := agree_repeated first agree
    have around := first.denotes.complete inner
    calc l * l∗ * accepted table exit
      _ = l * (l∗ * accepted table exit) := mul_assoc ..
      _ ≤ l * accepted table (.state middle.size) := by
          gcongr
          exact kstar_mul_accepted_le here around
      _ ≤ accepted table (.state body.start) := around

theorem denotes_zeroOrMore (first : Builds l states (body, middle)) :
    (body.repeated .zeroOrMore middle).1.Denotes (body.repeated .zeroOrMore middle).2 states.size
      l∗ := by
  constructor
  · intro table exit agree n
    simp only [Fragment.repeated, size_connect, Array.size_push] at agree
    obtain ⟨here, inner⟩ := agree_repeated first agree
    have around := first.denotes.bounded inner
    exact acceptedWithin_loop_succ here around (acceptedWithin_loop here around n)
  · intro table exit agree
    simp only [Fragment.repeated, size_connect, Array.size_push] at agree
    obtain ⟨here, inner⟩ := agree_repeated first agree
    exact kstar_mul_accepted_le here (first.denotes.complete inner)

theorem denotes_zeroOrOne (first : Builds l states (body, middle)) :
    (body.repeated .zeroOrOne middle).1.Denotes (body.repeated .zeroOrOne middle).2 states.size
      (1 + l) := by
  constructor
  · intro table exit agree n
    simp only [Fragment.repeated, connect_append, Array.size_push] at agree
    obtain ⟨here, inner⟩ := agree_repeated first agree
    calc acceptedWithin table (n + 1) (.state middle.size)
      _ = acceptedWithin table n (.state body.start) + acceptedWithin table n exit :=
          acceptedWithin_split n here
      _ ≤ l * acceptedWithin table n exit + acceptedWithin table n exit := by
          gcongr
          exact (acceptedWithin_le_succ table n _).trans (first.denotes.bounded inner n)
      _ = (1 + l) * acceptedWithin table n exit := by rw [add_mul, one_mul, add_comm]
  · intro table exit agree
    simp only [Fragment.repeated, connect_append, Array.size_push] at agree
    obtain ⟨here, inner⟩ := agree_repeated first agree
    calc (1 + l) * accepted table exit
      _ = l * accepted table exit + accepted table exit := by rw [add_mul, one_mul, add_comm]
      _ ≤ accepted table (.state body.start) + accepted table exit := by
          gcongr
          exact first.denotes.complete inner
      _ = accepted table (.state middle.size) := (accepted_split here).symm

theorem builds_repeated (first : Builds l states (body, middle)) (q : Quantifier) :
    Builds (q.language l) states (body.repeated q middle) := by
  have le : states.size ≤ middle.size := first.keeps.1
  have pushed := first.keeps.trans (keeps_push middle (.split (.state body.start) .dangling))
  have new := fun arrow member => (first.arrows arrow member).1
  cases q with
  | oneOrMore =>
      refine ⟨pushed.after_connect new _, ?_, denotes_oneOrMore first⟩
      simpa [Fragment.repeated] using le
  | zeroOrMore =>
      refine ⟨pushed.after_connect new _, ?_, denotes_zeroOrMore first⟩
      simpa [Fragment.repeated] using le
  | zeroOrOne =>
      refine ⟨pushed, ?_, denotes_zeroOrOne first⟩
      intro arrow member
      simp only [Fragment.repeated, Array.size_push] at member ⊢
      rcases List.mem_append.mp member with member | member
      · have inBlock := first.arrows arrow member
        simp only at inBlock
        omega
      · rw [List.mem_singleton.mp member]
        exact ⟨le, Nat.lt_succ_self _⟩

end Repeated

/-! ## Expressions -/

/-- **The piece of an expression denotes its language**, on top of any table. -/
theorem Expr.builds_assemble (e : Expr) (states : Array State) :
    Builds e.language states (e.assemble states) := by
  induction e generalizing states with
  | atom a => exact builds_atom a states
  | repeated body q ih => exact builds_repeated (ih states) q
  | cat left right ihl ihr => exact builds_cat (ihl states) (ihr _)
  | alt left right ihl ihr => exact builds_alt (ihl states) (ihr _)

/-- **The automaton of an expression accepts its words and no others.** -/
theorem Nfa.accepts_ofExpr_iff (e : Option Expr) (word : List Char) :
    (Nfa.ofExpr e).Accepts word ↔ word ∈ Expr.languageOf e := by
  cases e with
  | none =>
      show word ∈ accepted #[] .accept ↔ word ∈ (1 : Language Char)
      rw [accepted_accept]
  | some e =>
      have denotes := (e.builds_assemble #[]).denotes
      have agree : ∀ high table, Agree (#[] : Array State).size high table table :=
        fun _ _ _ _ _ => rfl
      constructor
      · intro path
        obtain ⟨n, within⟩ := exists_mem_acceptedWithin path
        have bound := denotes.bounded (agree _ _) n (acceptedWithin_le_succ _ n _ within)
        rwa [acceptedWithin, mul_one] at bound
      · intro member
        have bound := denotes.complete (agree _ (Nfa.ofExpr (some e)).states)
        rw [accepted_accept, mul_one] at bound
        exact bound member

/-- **Building from a postfix form and running decides the language.**  The postfix form of
an expression builds an automaton that accepts exactly the words of the expression, and
the empty sequence builds one that accepts the empty subject alone. -/
theorem Nfa.run_ofPostfix_iff (subject : List Char) :
    (∀ e : Expr, ∃ nfa, Nfa.ofPostfix e.postorder = .ok nfa ∧
      (nfa.run subject = true ↔ subject ∈ e.language)) ∧
    ∃ nfa, Nfa.ofPostfix [] = .ok nfa ∧ (nfa.run subject = true ↔ subject = []) := by
  have decides : ∀ e : Option Expr, ∃ nfa, Nfa.ofPostfix (Expr.postorderOf e) = .ok nfa ∧
      (nfa.run subject = true ↔ subject ∈ Expr.languageOf e) := by
    intro e
    refine ⟨Nfa.ofExpr e, Nfa.ofPostfix_postorderOf e, ?_⟩
    rw [Nfa.run_eq_true_iff, Nfa.accepts_ofExpr_iff]
  exact ⟨fun e => decides (some e), decides none⟩

end RegexAutomaton
