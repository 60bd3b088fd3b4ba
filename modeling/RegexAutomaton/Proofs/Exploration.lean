import Mathlib.Data.List.Induction
import RegexAutomaton.Nfa.Run
import RegexAutomaton.Proofs.Path

/-!
# What a frontier holds

Filling a frontier from some edges is a search that enters each state once.  The
invariant of the search (`Exploring`) bounds what has been entered from both sides: it
can be reached from the edges without consuming anything, and every edge that could
lead further is either settled or still pending.  When nothing is pending the frontier
holds exactly what can be reached (`Exploring.mem_active_iff`,
`Exploring.accepting_iff`).

By induction on the characters consumed, the frontier after a word holds exactly the
tests at the ends of the paths with that word (`mem_active_after_iff`), and a run
tells whether one of these paths ends in acceptance (`run_eq_true_iff`).  Giving up on
an empty frontier changes nothing, since stepping it leaves it empty.
-/

set_option autoImplicit false

namespace RegexAutomaton

namespace Frontier

variable {size : Nat} {frontier : Frontier size} {e : Edge}

/-- The state has been entered. -/
def Visited (frontier : Frontier size) (i : Fin size) : Prop := frontier.visited.get i = true

/-- Following the edge would not change the frontier. -/
def Settled (frontier : Frontier size) : Edge → Prop
  | .dangling => True
  | .accept => frontier.accepting = true
  | .state i => ∀ inTable : i < size, frontier.Visited ⟨i, inTable⟩

theorem not_visited_empty (i : Fin size) : ¬(empty size).Visited i := by
  simp [Visited, empty, Vector.get]

theorem visited_visit {i j : Fin size} :
    (frontier.visit i).Visited j ↔ i = j ∨ frontier.Visited j := by
  show (frontier.visited.set i true)[j.val] = true ↔ i = j ∨ frontier.visited[j.val] = true
  rw [Vector.getElem_set, Fin.ext_iff]
  split <;> simp_all

theorem Settled.visit (settled : frontier.Settled e) (i : Fin size) :
    (frontier.visit i).Settled e := by
  cases e with
  | dangling => trivial
  | accept => exact settled
  | state j => exact fun inTable => visited_visit.mpr (.inr (settled inTable))

theorem Settled.accept (settled : frontier.Settled e) : frontier.accept.Settled e := by
  cases e with
  | dangling => trivial
  | accept => rfl
  | state j => exact settled

end Frontier

namespace Nfa

variable {nfa : Nfa} {sources pending : List Edge} {frontier : Frontier nfa.states.size}

/-- The edge can be reached from one of the sources without consuming anything. -/
def SilentlyFrom (nfa : Nfa) (sources : List Edge) (e : Edge) : Prop :=
  ∃ source ∈ sources, Path nfa.states e source []

/-- The state consumes a character. -/
def IsTest (nfa : Nfa) (i : Nat) : Prop := ∃ a out, nfa.states[i]? = some (.test a out)

/-- A frontier on its way from the sources, with the pending edges still to be followed. -/
structure Exploring (nfa : Nfa) (sources pending : List Edge)
    (frontier : Frontier nfa.states.size) : Prop where
  pending_reached : ∀ e ∈ pending, nfa.SilentlyFrom sources e
  visited_reached : ∀ i, frontier.Visited i → nfa.SilentlyFrom sources (.state i)
  accepting_reached : frontier.accepting = true → nfa.SilentlyFrom sources .accept
  mem_active : ∀ i, i ∈ frontier.active ↔ frontier.Visited i ∧ nfa.IsTest i
  nodup_active : frontier.active.Nodup
  sources_handled : ∀ e ∈ sources, e ∈ pending ∨ frontier.Settled e
  splits_handled : ∀ i first second, frontier.Visited i →
    nfa.states[i.val]? = some (.split first second) →
    ∀ e ∈ [first, second], e ∈ pending ∨ frontier.Settled e

namespace Exploring

theorem start (nfa : Nfa) (sources : List Edge) :
    Exploring nfa sources sources (.empty nfa.states.size) where
  pending_reached e he := ⟨e, he, .arrive⟩
  visited_reached i visited := absurd visited (Frontier.not_visited_empty i)
  accepting_reached accepting := by simp [Frontier.empty] at accepting
  mem_active i :=
    iff_of_false List.not_mem_nil fun active => Frontier.not_visited_empty i active.1
  nodup_active := List.nodup_nil
  sources_handled e he := .inl he
  splits_handled i first second visited := absurd visited (Frontier.not_visited_empty i)

theorem skip {e : Edge} (exploring : Exploring nfa sources (e :: pending) frontier)
    (settled : frontier.Settled e) : Exploring nfa sources pending frontier := by
  have handled : ∀ d, d ∈ e :: pending ∨ frontier.Settled d →
      d ∈ pending ∨ frontier.Settled d := by
    rintro d (member | done)
    · rcases List.mem_cons.mp member with rfl | member
      · exact .inr settled
      · exact .inl member
    · exact .inr done
  exact { exploring with
    pending_reached := fun d hd => exploring.pending_reached d (List.mem_cons_of_mem e hd)
    sources_handled := fun d hd => handled d (exploring.sources_handled d hd)
    splits_handled := fun i first second visited split d hd =>
      handled d (exploring.splits_handled i first second visited split d hd) }

theorem accept (exploring : Exploring nfa sources (.accept :: pending) frontier) :
    Exploring nfa sources pending frontier.accept := by
  refine skip (e := .accept) ?_ rfl
  exact { exploring with
    accepting_reached := fun _ => exploring.pending_reached .accept List.mem_cons_self
    sources_handled := fun d hd => (exploring.sources_handled d hd).imp_right .accept
    splits_handled := fun i first second visited split d hd =>
      (exploring.splits_handled i first second visited split d hd).imp_right .accept }

theorem activate {i : Fin nfa.states.size}
    (exploring : Exploring nfa sources (.state i :: pending) frontier)
    (unvisited : ¬frontier.Visited i) (test : nfa.IsTest i) :
    Exploring nfa sources pending (frontier.activate i) := by
  have reached := exploring.pending_reached (.state i) List.mem_cons_self
  have settles : ∀ e, frontier.Settled e → (frontier.activate i).Settled e :=
    fun e settled => settled.visit i
  refine skip (e := .state i)
    { pending_reached := exploring.pending_reached
      visited_reached := ?_
      accepting_reached := exploring.accepting_reached
      mem_active := ?_
      nodup_active := ?_
      sources_handled := fun d hd => (exploring.sources_handled d hd).imp_right (settles d)
      splits_handled := ?_ } (fun _ => Frontier.visited_visit.mpr (.inl rfl))
  · intro j visited
    rcases Frontier.visited_visit.mp visited with rfl | visited
    · exact reached
    · exact exploring.visited_reached j visited
  · intro j
    show j ∈ i :: frontier.active ↔ (frontier.visit i).Visited j ∧ _
    rw [List.mem_cons, exploring.mem_active j, Frontier.visited_visit]
    constructor
    · rintro (rfl | ⟨visited, testJ⟩)
      · exact ⟨.inl rfl, test⟩
      · exact ⟨.inr visited, testJ⟩
    · rintro ⟨rfl | visited, testJ⟩
      · exact .inl rfl
      · exact .inr ⟨visited, testJ⟩
  · refine List.nodup_cons.mpr ⟨?_, exploring.nodup_active⟩
    intro member
    exact unvisited ((exploring.mem_active i).mp member).1
  · intro j first second visited split d hd
    rcases Frontier.visited_visit.mp visited with rfl | visited
    · obtain ⟨a, out, test⟩ := test
      rw [split] at test
      cases test
    · exact (exploring.splits_handled j first second visited split d hd).imp_right (settles d)

theorem expand {i : Fin nfa.states.size} {first second : Edge}
    (exploring : Exploring nfa sources (.state i :: pending) frontier)
    (here : nfa.states[i.val]? = some (.split first second)) :
    Exploring nfa sources (first :: second :: pending) (frontier.visit i) := by
  obtain ⟨source, member, path⟩ := exploring.pending_reached (.state i) List.mem_cons_self
  -- an edge that was handled before is settled now, pending now, or the one being followed
  have handled : ∀ d, d ∈ .state i :: pending ∨ frontier.Settled d →
      d ∈ first :: second :: pending ∨ (frontier.visit i).Settled d := by
    rintro d (member | settled)
    · rcases List.mem_cons.mp member with rfl | member
      · exact .inr fun _ => Frontier.visited_visit.mpr (.inl rfl)
      · exact .inl (List.mem_cons_of_mem _ (List.mem_cons_of_mem _ member))
    · exact .inr (settled.visit i)
  constructor
  · intro d hd
    rcases List.mem_cons.mp hd with rfl | hd
    · exact ⟨source, member, path.append (.first here .arrive)⟩
    · rcases List.mem_cons.mp hd with rfl | hd
      · exact ⟨source, member, path.append (.second here .arrive)⟩
      · exact exploring.pending_reached d (List.mem_cons_of_mem _ hd)
  · intro j visited
    rcases Frontier.visited_visit.mp visited with rfl | visited
    · exact ⟨source, member, path⟩
    · exact exploring.visited_reached j visited
  · exact exploring.accepting_reached
  · intro j
    show j ∈ frontier.active ↔ _
    rw [exploring.mem_active j, Frontier.visited_visit]
    refine and_congr_left fun test => ⟨.inr, ?_⟩
    rintro (rfl | visited)
    · obtain ⟨a, out, test⟩ := test
      rw [here] at test
      cases test
    · exact visited
  · exact exploring.nodup_active
  · exact fun d hd => handled d (exploring.sources_handled d hd)
  · intro j first' second' visited split d hd
    rcases Frontier.visited_visit.mp visited with rfl | visited
    · rw [here] at split
      cases split
      exact .inl (List.mem_append_left pending hd)
    · exact handled d (exploring.splits_handled j first' second' visited split d hd)

/-- **Following all pending edges completes the search.** -/
theorem explore (exploring : Exploring nfa sources pending frontier) :
    Exploring nfa sources [] (nfa.explore frontier pending) := by
  fun_induction Nfa.explore nfa frontier pending with
  | case1 frontier => exact exploring
  | case2 frontier pending ih => exact ih (exploring.skip trivial)
  | case3 frontier pending ih => exact ih exploring.accept
  | case4 frontier i pending inTable visited ih => exact ih (exploring.skip fun _ => visited)
  | case5 frontier i pending inTable unvisited a out test ih =>
      have here := Array.getElem?_eq_some_iff.mpr ⟨inTable, test⟩
      exact ih (exploring.activate (i := ⟨i, inTable⟩) unvisited ⟨a, out, here⟩)
  | case6 frontier i pending inTable unvisited first second split ih =>
      have here := Array.getElem?_eq_some_iff.mpr ⟨inTable, split⟩
      exact ih (exploring.expand (i := ⟨i, inTable⟩) here)
  | case7 frontier i pending outside ih =>
      exact ih (exploring.skip fun inTable => absurd inTable outside)

/-- When nothing is pending, settled edges lead to settled edges. -/
theorem settled_of_path (complete : Exploring nfa sources [] frontier) {e goal : Edge}
    {word : List Char} (path : Path nfa.states goal e word) (silent : word = [])
    (settled : frontier.Settled e) : frontier.Settled goal := by
  have next : ∀ i first second, nfa.states[i]? = some (.split first second) →
      frontier.Settled (.state i) → frontier.Settled first ∧ frontier.Settled second := by
    intro i first second here settled
    obtain ⟨inTable, _⟩ := Array.getElem?_eq_some_iff.mp here
    have handled := complete.splits_handled ⟨i, inTable⟩ first second (settled inTable) here
    exact ⟨(handled first (by simp)).resolve_left List.not_mem_nil,
      (handled second (by simp)).resolve_left List.not_mem_nil⟩
  induction path with
  | arrive => exact settled
  | consume => cases silent
  | first here _ ih => exact ih silent (next _ _ _ here settled).1
  | second here _ ih => exact ih silent (next _ _ _ here settled).2

theorem settled_of_silentlyFrom (complete : Exploring nfa sources [] frontier) {e : Edge}
    (reached : nfa.SilentlyFrom sources e) : frontier.Settled e := by
  obtain ⟨source, member, path⟩ := reached
  have settled := (complete.sources_handled source member).resolve_left List.not_mem_nil
  exact complete.settled_of_path path rfl settled

/-- **A completed frontier lists exactly the tests that can be reached.** -/
theorem mem_active_iff (complete : Exploring nfa sources [] frontier)
    (i : Fin nfa.states.size) :
    i ∈ frontier.active ↔ nfa.SilentlyFrom sources (.state i) ∧ nfa.IsTest i := by
  rw [complete.mem_active i]
  apply and_congr_left
  intro _
  constructor
  · exact complete.visited_reached i
  · intro reached
    exact complete.settled_of_silentlyFrom reached i.isLt

/-- **A completed frontier accepts exactly when acceptance can be reached.** -/
theorem accepting_iff (complete : Exploring nfa sources [] frontier) :
    frontier.accepting = true ↔ nfa.SilentlyFrom sources .accept :=
  ⟨complete.accepting_reached, complete.settled_of_silentlyFrom⟩

end Exploring

/-! ## The frontier after a word -/

/-- The frontier after the characters of a word have been consumed. -/
def after (nfa : Nfa) (word : List Char) : Frontier nfa.states.size :=
  word.foldl nfa.step nfa.initial

theorem after_concat (nfa : Nfa) (word : List Char) (c : Char) :
    nfa.after (word ++ [c]) = nfa.step (nfa.after word) c := by
  rw [after, List.foldl_append]
  rfl

theorem exploring_initial (nfa : Nfa) : Exploring nfa [nfa.start] [] nfa.initial :=
  (Exploring.start nfa _).explore

theorem follow?_eq_some_iff {s : State} {c : Char} {e : Edge} :
    s.follow? c = some e ↔ ∃ a, s = .test a e ∧ a.accepts c = true := by
  cases s with
  | test a out =>
      simp only [State.follow?, Option.ite_none_right_eq_some, Option.some.injEq,
        State.test.injEq]
      constructor
      · rintro ⟨accepts, rfl⟩
        exact ⟨a, ⟨rfl, rfl⟩, accepts⟩
      · rintro ⟨b, ⟨rfl, rfl⟩, accepts⟩
        exact ⟨accepts, rfl⟩
  | split first second => simp [State.follow?]

/-- A step explores from the edges that active tests follow. -/
theorem exists_exploring_step (nfa : Nfa) (frontier : Frontier nfa.states.size) (c : Char) :
    ∃ sources, Exploring nfa sources [] (nfa.step frontier c) ∧
      ∀ out, out ∈ sources ↔ ∃ i ∈ frontier.active, ∃ a,
        nfa.states[i.val]? = some (.test a out) ∧ a.accepts c = true := by
  refine ⟨_, (Exploring.start nfa _).explore, ?_⟩
  intro out
  rw [List.mem_filterMap]
  refine exists_congr fun i => and_congr_right fun _ => ?_
  rw [follow?_eq_some_iff, Array.getElem?_eq_getElem i.isLt]
  exact exists_congr fun a => and_congr_left fun _ => Option.some_inj.symm

/-- One more character extends the paths that end at an active test. -/
theorem silentlyFrom_step_iff {word : List Char} {c : Char}
    (listed : ∀ i, i ∈ frontier.active ↔ Path nfa.states (.state i) nfa.start word ∧ nfa.IsTest i)
    (followed : ∀ out, out ∈ sources ↔ ∃ i ∈ frontier.active, ∃ a,
      nfa.states[i.val]? = some (.test a out) ∧ a.accepts c = true) {e : Edge} :
    nfa.SilentlyFrom sources e ↔ Path nfa.states e nfa.start (word ++ [c]) := by
  constructor
  · rintro ⟨out, member, rest⟩
    obtain ⟨i, active, a, here, accepts⟩ := (followed out).mp member
    exact ((listed i).mp active).1.append (.consume here accepts rest)
  · intro path
    obtain ⟨i, a, out, here, accepts, before, rest⟩ := path.cut
    obtain ⟨inTable, _⟩ := Array.getElem?_eq_some_iff.mp here
    have active := (listed ⟨i, inTable⟩).mpr ⟨before, a, out, here⟩
    exact ⟨out, (followed out).mpr ⟨_, active, a, here, accepts⟩, rest⟩

/-- **After a word the frontier lists exactly the tests at the ends of its paths.** -/
theorem mem_active_after_iff (nfa : Nfa) (word : List Char) (i : Fin nfa.states.size) :
    i ∈ (nfa.after word).active ↔ Path nfa.states (.state i) nfa.start word ∧ nfa.IsTest i := by
  induction word using List.reverseRecOn generalizing i with
  | nil => simp [after, nfa.exploring_initial.mem_active_iff, SilentlyFrom]
  | append_singleton word c ih =>
      obtain ⟨sources, exploring, followed⟩ := exists_exploring_step nfa (nfa.after word) c
      rw [after_concat, exploring.mem_active_iff, silentlyFrom_step_iff ih followed]

/-- **After a word the frontier accepts exactly when a path of the word does.** -/
theorem accepting_after_iff (nfa : Nfa) (word : List Char) :
    (nfa.after word).accepting = true ↔ nfa.Accepts word := by
  induction word using List.reverseRecOn with
  | nil => simp [after, nfa.exploring_initial.accepting_iff, SilentlyFrom, Accepts]
  | append_singleton word c _ =>
      obtain ⟨sources, exploring, followed⟩ := exists_exploring_step nfa (nfa.after word) c
      rw [after_concat, exploring.accepting_iff,
        silentlyFrom_step_iff (nfa.mem_active_after_iff word) followed, Accepts]

/-! ## Runs -/

theorem step_of_active_eq_nil (inactive : frontier.active = []) (c : Char) :
    nfa.step frontier c = .empty _ := by
  rw [step, inactive, List.filterMap_nil, Nfa.explore]

theorem accepting_foldl_empty (nfa : Nfa) (word : List Char) :
    (word.foldl nfa.step (.empty _)).accepting = false := by
  induction word with
  | nil => rfl
  | cons c word ih => rw [List.foldl_cons, step_of_active_eq_nil rfl, ih]

/-- Giving up early answers as stepping to the end would. -/
theorem runFrom_eq (nfa : Nfa) (frontier : Frontier nfa.states.size) (subject : List Char) :
    nfa.runFrom frontier subject = (subject.foldl nfa.step frontier).accepting := by
  induction subject generalizing frontier with
  | nil => rfl
  | cons c rest ih =>
      rw [runFrom, List.foldl_cons]
      split
      · rename_i inactive
        rw [step_of_active_eq_nil (List.isEmpty_iff.mp inactive), accepting_foldl_empty]
      · exact ih _

/-- **A run tells whether some path of the subject ends in acceptance.** -/
theorem run_eq_true_iff (nfa : Nfa) (subject : List Char) :
    nfa.run subject = true ↔ nfa.Accepts subject := by
  rw [run, runFrom_eq]
  exact nfa.accepting_after_iff subject

end Nfa

end RegexAutomaton
