import RegexAutomaton.Proofs.Decoding

/-!
# The shape of an automaton

**One state for each token.** Every token but a concatenation makes one state, and what is
built later leads its edges elsewhere without changing its kind.  So the table lists the
states of the tokens in their order (`Assembly.makes_run`).

**Nothing is cut off.** Edges are followed here without regard to what the states test
(`LeadsOn`).  A piece is connected when every state of its block is reached from its entry and
leads to its exit, in every table that agrees with the block (`Fragment.Connected`).  Pieces put
together stay connected, since the entry of a piece leads through it to what the piece is led
to (`Expr.connected_assemble`).

**Result.** In every automaton that a sequence builds the states are those of its tokens, no
edge dangles, and every state lies on a way from the start to acceptance
(`Nfa.shape_ofPostfix`).
-/

set_option autoImplicit false

namespace RegexAutomaton

/-! ## One state for each token -/

/-- The token makes the state: an atom its test, an operator or an alternation a split. -/
inductive Token.Makes : Token → State → Prop where
  | atom (a : Atom) (out : Edge) : Makes (.atom a) (.test a out)
  | quantifier (q : Quantifier) (first second : Edge) :
      Makes (.quantifier q) (.split first second)
  | alt (first second : Edge) : Makes .alt (.split first second)

/-- The table holds a state for each token but the concatenations, in the same order. -/
def Token.MakeAll (tokens : List Token) (states : Array State) : Prop :=
  List.Forall₂ Token.Makes (tokens.filter (· ≠ .cat)) states.toList

theorem Token.Makes.setEdge {t : Token} {s : State} (makes : t.Makes s) (target : Edge)
    (slot : Slot) : t.Makes (s.setEdge target slot) := by
  cases makes <;> cases slot <;> constructor

/-- What pairs with the entries of a list pairs with them after one of them has been changed. -/
theorem forall₂_modify {α β : Type} {R : α → β → Prop} {f : β → β}
    (keeps : ∀ a b, R a b → R a (f b)) {l : List α} {l' : List β} (pairs : List.Forall₂ R l l')
    (i : Nat) : List.Forall₂ R l (l'.modify i f) := by
  induction pairs generalizing i with
  | nil => simp
  | @cons a b _ _ here rest ih =>
      cases i with
      | zero => exact .cons (keeps a b here) rest
      | succ i => exact .cons here (ih i)

theorem Token.MakeAll.setArrow {tokens : List Token} {states : Array State}
    (made : MakeAll tokens states) (target : Edge) (arrow : Arrow) :
    MakeAll tokens (setArrow target states arrow) := by
  rw [MakeAll, RegexAutomaton.setArrow, Array.toList_modify]
  exact forall₂_modify (fun t s makes => makes.setEdge target arrow.slot) made arrow.state

theorem Token.MakeAll.connect {tokens : List Token} {states : Array State}
    (made : MakeAll tokens states) (arrows : List Arrow) (target : Edge) :
    MakeAll tokens (connect states arrows target) := by
  induction arrows generalizing states with
  | nil => exact made
  | cons arrow arrows ih => exact ih (made.setArrow target arrow)

theorem Token.MakeAll.push {tokens : List Token} {states : Array State}
    (made : MakeAll tokens states) {t : Token} {s : State} (makes : t.Makes s) :
    MakeAll (tokens ++ [t]) (states.push s) := by
  have kept : t ≠ .cat := by
    rintro rfl
    cases makes
  rw [MakeAll, List.filter_append, Array.toList_push]
  simpa [kept] using List.rel_append made (.cons makes .nil)

namespace Assembly

variable {m next : Assembly} {tokens : List Token}

/-- **Taking in a token makes its state**, and leaves the others the states of their tokens. -/
theorem makes_step (made : Token.MakeAll tokens m.states) {t : Token}
    (steps : m.step t = .ok next) : Token.MakeAll (tokens ++ [t]) next.states := by
  obtain ⟨states, stack⟩ := m
  cases t with
  | atom a =>
      cases steps
      exact made.push (.atom a _)
  | quantifier q =>
      rcases stack with _ | ⟨body, stack⟩ <;> cases steps
      have grown := made.push (.quantifier q (.state body.start) .dangling)
      cases q with
      | oneOrMore => exact grown.connect _ _
      | zeroOrMore => exact grown.connect _ _
      | zeroOrOne => exact grown
  | cat =>
      rcases stack with _ | ⟨right, _ | ⟨left, stack⟩⟩ <;> cases steps
      have same : (tokens ++ [Token.cat]).filter (· ≠ .cat) = tokens.filter (· ≠ .cat) := by
        simp
      rw [Token.MakeAll, same]
      exact made.connect left.dangling (.state right.start)
  | alt =>
      rcases stack with _ | ⟨right, _ | ⟨left, stack⟩⟩ <;> cases steps
      exact made.push (.alt _ _)

/-- **A run makes the states of its tokens, in their order.** -/
theorem makes_run {more : List Token} (made : Token.MakeAll tokens m.states)
    (runs : m.run more = .ok next) : Token.MakeAll (tokens ++ more) next.states := by
  induction more generalizing m tokens with
  | nil =>
      cases runs
      rwa [List.append_nil]
  | cons t rest ih =>
      obtain ⟨middle, steps, runs⟩ := exists_step_of_run runs
      have made := ih (makes_step made steps) runs
      rwa [List.append_assoc, List.singleton_append] at made

end Assembly

theorem Nfa.makeAll_ofPostfix {tokens : List Token} {nfa : Nfa}
    (builds : Nfa.ofPostfix tokens = .ok nfa) : Token.MakeAll tokens nfa.states := by
  rw [Nfa.ofPostfix] at builds
  cases runs : Assembly.start.run tokens with
  | error e =>
      rw [runs] at builds
      cases builds
  | ok m =>
      rw [runs] at builds
      have started : Token.MakeAll [] Assembly.start.states := .nil
      have made : Token.MakeAll tokens m.states := Assembly.makes_run started runs
      obtain ⟨states, stack⟩ := m
      rcases stack with _ | ⟨f, _ | ⟨g, stack⟩⟩ <;> cases builds
      · exact made
      · exact made.connect f.dangling .accept

/-! ## Following edges -/

/-- The first edge leads to a state that the second one leaves. -/
inductive Leads (states : Array State) : Edge → Edge → Prop where
  | out {i : Nat} {s : State} {e : Edge} (here : states[i]? = some s) (leaves : e ∈ s.edges) :
      Leads states (.state i) e

/-- The first edge leads to the second one across any number of states, whatever they test. -/
abbrev LeadsOn (states : Array State) : Edge → Edge → Prop := Relation.ReflTransGen (Leads states)

section Leads

variable {table : Array State} {i : Nat} {a : Atom} {out first second : Edge}

theorem leads_test (here : table[i]? = some (.test a out)) : Leads table (.state i) out :=
  .out here (List.mem_singleton_self out)

theorem leads_split (here : table[i]? = some (.split first second)) :
    Leads table (.state i) first ∧ Leads table (.state i) second :=
  ⟨.out here (by simp [State.edges]), .out here (by simp [State.edges])⟩

end Leads

/-! ## Connected pieces -/

/-- In every table that agrees with the block from `low` on, with the arrows of the piece
led to the exit, every state of the block is reached from the entry and leads to the exit. -/
structure Fragment.Connected (f : Fragment) (states : Array State) (low : Nat) : Prop where
  start : low ≤ f.start ∧ f.start < states.size
  entered : ∀ {table : Array State} {exit : Edge},
    Agree low states.size table (connect states f.dangling exit) → ∀ i, low ≤ i →
      i < states.size → LeadsOn table (.state f.start) (.state i)
  left : ∀ {table : Array State} {exit : Edge},
    Agree low states.size table (connect states f.dangling exit) → ∀ i, low ≤ i →
      i < states.size → LeadsOn table (.state i) exit

/-- The entry of a connected piece leads through it. -/
theorem Fragment.Connected.crosses {f : Fragment} {states table : Array State} {low : Nat}
    {exit : Edge} (connected : f.Connected states low)
    (agree : Agree low states.size table (connect states f.dangling exit)) :
    LeadsOn table (.state f.start) exit :=
  connected.left agree f.start connected.start.1 connected.start.2

theorem connected_atom (a : Atom) (states : Array State) :
    (Fragment.atom a states).1.Connected (Fragment.atom a states).2 states.size := by
  constructor
  · simp [Fragment.atom]
  · intro table exit _ i low high
    have only : i = states.size := by
      simp only [Fragment.atom, Array.size_push] at high
      omega
    rw [only]
    exact .refl
  · intro table exit agree i low high
    have only : i = states.size := by
      simp only [Fragment.atom, Array.size_push] at high
      omega
    rw [only]
    exact .single (leads_test (agree_atom agree))

section Pairs

variable {l r : Language Char} {states middle grown : Array State} {left right : Fragment}

theorem connected_cat (first : Builds l states (left, middle))
    (second : Builds r middle (right, grown)) (inLeft : left.Connected middle states.size)
    (inRight : right.Connected grown middle.size) :
    (left.cat right grown).1.Connected (left.cat right grown).2 states.size := by
  have sizes : states.size ≤ middle.size ∧ middle.size ≤ grown.size :=
    ⟨first.keeps.1, second.keeps.1⟩
  constructor
  · have start := inLeft.start
    simp only [Fragment.cat, size_connect]
    omega
  · intro table exit agree i low high
    obtain ⟨agreeLeft, agreeRight⟩ := agree_cat first second agree
    simp only [Fragment.cat, size_connect] at high ⊢
    by_cases here : i < middle.size
    · exact inLeft.entered agreeLeft i low here
    · exact (inLeft.crosses agreeLeft).trans (inRight.entered agreeRight i (by omega) high)
  · intro table exit agree i low high
    obtain ⟨agreeLeft, agreeRight⟩ := agree_cat first second agree
    simp only [Fragment.cat, size_connect] at high
    by_cases here : i < middle.size
    · exact (inLeft.left agreeLeft i low here).trans (inRight.crosses agreeRight)
    · exact inRight.left agreeRight i (by omega) high

theorem connected_alt (first : Builds l states (left, middle))
    (second : Builds r middle (right, grown)) (inLeft : left.Connected middle states.size)
    (inRight : right.Connected grown middle.size) :
    (left.alt right grown).1.Connected (left.alt right grown).2 states.size := by
  have sizes : states.size ≤ middle.size ∧ middle.size ≤ grown.size :=
    ⟨first.keeps.1, second.keeps.1⟩
  constructor
  · simp only [Fragment.alt, Array.size_push]
    omega
  · intro table exit agree i low high
    obtain ⟨split, agreeLeft, agreeRight⟩ := agree_alt first second agree
    obtain ⟨intoLeft, intoRight⟩ := leads_split split
    simp only [Fragment.alt, Array.size_push] at high ⊢
    rcases Nat.lt_trichotomy i grown.size with below | rfl | above
    · by_cases here : i < middle.size
      · exact .head intoLeft (inLeft.entered agreeLeft i low here)
      · exact .head intoRight (inRight.entered agreeRight i (by omega) below)
    · exact .refl
    · omega
  · intro table exit agree i low high
    obtain ⟨split, agreeLeft, agreeRight⟩ := agree_alt first second agree
    obtain ⟨intoLeft, _⟩ := leads_split split
    simp only [Fragment.alt, Array.size_push] at high
    rcases Nat.lt_trichotomy i grown.size with below | rfl | above
    · by_cases here : i < middle.size
      · exact inLeft.left agreeLeft i low here
      · exact inRight.left agreeRight i (by omega) below
    · exact .head intoLeft (inLeft.crosses agreeLeft)
    · omega

end Pairs

section Repeated

variable {l : Language Char} {states middle : Array State} {body : Fragment}

/-- A repeated piece is as before, led back to the split on top of it or to the exit.  Unless
it is led back, the split is the entry. -/
theorem exists_agree_repeated {table : Array State} {exit : Edge}
    (first : Builds l states (body, middle)) (q : Quantifier)
    (agree : Agree states.size (body.repeated q middle).2.size table
      (connect (body.repeated q middle).2 (body.repeated q middle).1.dangling exit)) :
    table[middle.size]? = some (.split (.state body.start) exit) ∧
      ∃ target, Agree states.size middle.size table (connect middle body.dangling target) ∧
        (target = .state middle.size ∧ (body.repeated q middle).1.start = body.start ∨
          (target = .state middle.size ∨ target = exit) ∧
            (body.repeated q middle).1.start = middle.size) := by
  cases q with
  | oneOrMore =>
      simp only [Fragment.repeated, size_connect, Array.size_push] at agree
      obtain ⟨split, inner⟩ := agree_repeated first agree
      exact ⟨split, _, inner, .inl ⟨rfl, rfl⟩⟩
  | zeroOrMore =>
      simp only [Fragment.repeated, size_connect, Array.size_push] at agree
      obtain ⟨split, inner⟩ := agree_repeated first agree
      exact ⟨split, _, inner, .inr ⟨.inl rfl, rfl⟩⟩
  | zeroOrOne =>
      simp only [Fragment.repeated, connect_append, Array.size_push] at agree
      obtain ⟨split, inner⟩ := agree_repeated first agree
      exact ⟨split, _, inner, .inr ⟨.inr rfl, rfl⟩⟩

theorem size_repeated (body : Fragment) (q : Quantifier) (states : Array State) :
    (body.repeated q states).2.size = states.size + 1 := by
  cases q <;> simp [Fragment.repeated]

theorem connected_repeated (first : Builds l states (body, middle))
    (inBody : body.Connected middle states.size) (q : Quantifier) :
    (body.repeated q middle).1.Connected (body.repeated q middle).2 states.size := by
  have le : states.size ≤ middle.size := first.keeps.1
  constructor
  · rw [size_repeated]
    have start := inBody.start
    cases q <;> simp only [Fragment.repeated] <;> omega
  · intro table exit agree i low high
    obtain ⟨split, target, inner, entry⟩ := exists_agree_repeated first q agree
    obtain ⟨enter, _⟩ := leads_split split
    rw [size_repeated] at high
    rcases entry with ⟨rfl, same⟩ | ⟨_, same⟩
    · rw [same]
      rcases Nat.lt_succ_iff_lt_or_eq.mp high with here | rfl
      · exact inBody.entered inner i low here
      · exact inBody.crosses inner
    · rw [same]
      rcases Nat.lt_succ_iff_lt_or_eq.mp high with here | rfl
      · exact .head enter (inBody.entered inner i low here)
      · exact .refl
  · intro table exit agree i low high
    obtain ⟨split, target, inner, entry⟩ := exists_agree_repeated first q agree
    obtain ⟨_, leave⟩ := leads_split split
    have onward : LeadsOn table target exit := by
      rcases entry with ⟨rfl, _⟩ | ⟨rfl | rfl, _⟩
      · exact .single leave
      · exact .single leave
      · exact .refl
    rw [size_repeated] at high
    rcases Nat.lt_succ_iff_lt_or_eq.mp high with here | rfl
    · exact (inBody.left inner i low here).trans onward
    · exact .single leave

end Repeated

/-- **The piece of an expression is connected**, on top of any table. -/
theorem Expr.connected_assemble (e : Expr) (states : Array State) :
    (e.assemble states).1.Connected (e.assemble states).2 states.size := by
  induction e generalizing states with
  | atom a => exact connected_atom a states
  | repeated body q ih =>
      exact connected_repeated (body.builds_assemble states) (ih states) q
  | cat left right ihl ihr =>
      exact connected_cat (left.builds_assemble states) (right.builds_assemble _) (ihl states)
        (ihr _)
  | alt left right ihl ihr =>
      exact connected_alt (left.builds_assemble states) (right.builds_assemble _) (ihl states)
        (ihr _)

/-! ## Every automaton -/

/-- **In the automaton of an expression every state lies on a way from the start to
acceptance.** -/
theorem Nfa.leadsOn_ofExpr (e : Option Expr) {i : Nat} (inTable : i < (ofExpr e).states.size) :
    LeadsOn (ofExpr e).states (ofExpr e).start (.state i) ∧
      LeadsOn (ofExpr e).states (.state i) .accept := by
  cases e with
  | none => exact absurd inTable (Nat.not_lt_zero i)
  | some e =>
      have connected := e.connected_assemble #[]
      have agree : ∀ high table, Agree (#[] : Array State).size high table table :=
        fun _ _ _ _ _ => rfl
      have inBlock : i < (e.assemble #[]).2.size := by
        simpa [ofExpr, ofFragment] using inTable
      exact ⟨connected.entered (agree _ _) i (Nat.zero_le i) inBlock,
        connected.left (agree _ _) i (Nat.zero_le i) inBlock⟩

/-- **The shape of every automaton that a sequence builds.**  Its states are those of the tokens
that are no concatenations, in the order of the tokens.  Every edge, the start edge among them,
accepts or leads to a state of the table.  Every state is reached from the start edge, and
from every state acceptance is reached. -/
theorem Nfa.shape_ofPostfix {tokens : List Token} {nfa : Nfa}
    (builds : Nfa.ofPostfix tokens = .ok nfa) :
    List.Forall₂ Token.Makes (tokens.filter (· ≠ .cat)) nfa.states.toList ∧ nfa.Wired ∧
      ∀ i < nfa.states.size, LeadsOn nfa.states nfa.start (.state i) ∧
        LeadsOn nfa.states (.state i) .accept := by
  refine ⟨Nfa.makeAll_ofPostfix builds, Nfa.wired_ofPostfix builds, ?_⟩
  intro i inTable
  obtain ⟨e, _, rfl⟩ := Nfa.exists_expr_of_ofPostfix builds
  exact Nfa.leadsOn_ofExpr e inTable

/-- The sequence for `ab|c*` has two letters, a concatenation, a letter and two operators, and
makes a state for all of them but the concatenation. -/
theorem Nfa.shape_ofPostfix_alternation :
    ∃ nfa, Nfa.ofPostfix [.atom (.char 'a' false), .atom (.char 'b' false), .cat,
        .atom (.char 'c' false), .quantifier .zeroOrMore, .alt] = .ok nfa ∧
      List.Forall₂ Token.Makes [.atom (.char 'a' false), .atom (.char 'b' false),
        .atom (.char 'c' false), .quantifier .zeroOrMore, .alt] nfa.states.toList ∧ nfa.Wired ∧
      ∀ i < nfa.states.size, LeadsOn nfa.states nfa.start (.state i) ∧
        LeadsOn nfa.states (.state i) .accept := by
  cases builds : Nfa.ofPostfix [.atom (.char 'a' false), .atom (.char 'b' false), .cat,
      .atom (.char 'c' false), .quantifier .zeroOrMore, .alt] with
  | error e => cases builds
  | ok nfa => exact ⟨nfa, rfl, Nfa.shape_ofPostfix builds⟩

end RegexAutomaton
