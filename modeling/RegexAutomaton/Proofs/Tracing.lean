import Mathlib.Data.Set.Card
import RegexAutomaton.Proofs.Buffers
import RegexAutomaton.Proofs.Wiring

/-!
# What a trace tells

The states that can consume the next character after a word are the tests at the ends of the
word's paths (`Nfa.testsAfter`).  The frontier after a word is exact: it lists these tests, each one
once, and accepts if a path of the word does (`Nfa.Exact`, `Nfa.exact_after`).

**Records.** So the number that is recorded after a character is the number of these tests, and a
run gives up at the first place where there are none.  The induction is on the characters still to
come, with those consumed before generalised (`Nfa.traceFrom_after`).

**Giving up.** Every path of a longer word passes through a test after each of the word's beginnings
(`Path.cut`).  So where no test is left, no longer word is accepted either
(`Nfa.run_eq_false_of_testsAfter`).

**Result.** In every automaton that a sequence builds the frontiers are exact, whatever the buffer
held in which they are made, and the trace follows from the paths of the subject alone
(`Nfa.trace_ofPostfix`).
-/

set_option autoImplicit false

namespace RegexAutomaton

namespace Nfa

variable {nfa : Nfa}

/-! ## Frontiers -/

/-- The tests at the ends of the paths of a word. -/
def testsAfter (nfa : Nfa) (word : List Char) : Set (Fin nfa.states.size) :=
  {i | Path nfa.states (.state i) nfa.start word ∧ nfa.IsTest i}

/-- The frontier holds where the automaton can be after the word, and nothing twice. -/
structure Exact (nfa : Nfa) (word : List Char) (frontier : Frontier nfa.states.size) : Prop where
  nodup_active : frontier.active.Nodup
  mem_active_iff : ∀ i, i ∈ frontier.active ↔ i ∈ nfa.testsAfter word
  accepting_iff : frontier.accepting = true ↔ nfa.Accepts word

theorem nodup_active_after (nfa : Nfa) (word : List Char) : (nfa.after word).active.Nodup := by
  cases word using List.reverseRecOn with
  | nil => exact nfa.exploring_initial.nodup_active
  | append_singleton word c =>
      obtain ⟨_, exploring, _⟩ := exists_exploring_step nfa (nfa.after word) c
      rw [after_concat]
      exact exploring.nodup_active

/-- **The frontier after a word is exact.** -/
theorem exact_after (nfa : Nfa) (word : List Char) : nfa.Exact word (nfa.after word) where
  nodup_active := nfa.nodup_active_after word
  mem_active_iff := nfa.mem_active_after_iff word
  accepting_iff := nfa.accepting_after_iff word

namespace Exact

variable {word : List Char} {frontier : Frontier nfa.states.size}

theorem length_active (exact : nfa.Exact word frontier) :
    frontier.active.length = (nfa.testsAfter word).ncard := by
  have same : nfa.testsAfter word = ↑frontier.active.toFinset := by
    ext i
    rw [← exact.mem_active_iff, Finset.mem_coe, List.mem_toFinset]
  rw [same, Set.ncard_coe_finset, List.toFinset_card_of_nodup exact.nodup_active]

theorem active_eq_nil_iff (exact : nfa.Exact word frontier) :
    frontier.active = [] ↔ nfa.testsAfter word = ∅ := by
  rw [List.eq_nil_iff_forall_not_mem, Set.eq_empty_iff_forall_notMem]
  exact forall_congr' fun i => not_congr (exact.mem_active_iff i)

end Exact

/-! ## Records -/

/-- What is recorded about a character of the subject and its position. -/
noncomputable def record (nfa : Nfa) (subject : List Char) : Char × Nat → Progress
  | (c, position) =>
    .advanced c position (nfa.testsAfter (subject.take (position + 1))).ncard

theorem record_next (nfa : Nfa) (word : List Char) (c : Char) (rest : List Char) :
    nfa.record (word ++ c :: rest) (c, word.length) =
      .advanced c word.length (nfa.after (word ++ [c])).active.length := by
  rw [record, (nfa.exact_after _).length_active, List.take_length_add_append, List.take_succ_cons,
    List.take_zero]

theorem traceFrom_of_alive {frontier : Frontier nfa.states.size} (alive : frontier.active ≠ [])
    (position : Nat) (c : Char) (rest : List Char) :
    nfa.traceFrom frontier position (c :: rest) =
      .advanced c position (nfa.step frontier c).active.length ::
        nfa.traceFrom (nfa.step frontier c) (position + 1) rest := by
  rw [traceFrom, if_neg (by rwa [List.isEmpty_iff])]

theorem traceFrom_of_dead {frontier : Frontier nfa.states.size} (dead : frontier.active = [])
    (position : Nat) (c : Char) (rest : List Char) :
    nfa.traceFrom frontier position (c :: rest) = [.died position] := by
  rw [traceFrom, if_pos (List.isEmpty_iff.mpr dead)]

/-- **The records of what is still to come** after a word that has been consumed: one for each
character that finds a test before it, and one for the first character that finds none. -/
theorem traceFrom_after (nfa : Nfa) (word rest : List Char) :
    ∃ k ≤ rest.length, (∀ pos < k, (nfa.testsAfter (word ++ rest.take pos)).Nonempty) ∧
      (k < rest.length → nfa.testsAfter (word ++ rest.take k) = ∅) ∧
      nfa.traceFrom (nfa.after word) word.length rest =
        ((rest.take k).zipIdx word.length).map (nfa.record (word ++ rest)) ++
          if k < rest.length then [.died (word.length + k)] else [] := by
  induction rest generalizing word with
  | nil => exact ⟨0, le_rfl, fun pos early => absurd early (Nat.not_lt_zero pos),
      fun early => absurd early (Nat.lt_irrefl 0), rfl⟩
  | cons c rest ih =>
      have exact := nfa.exact_after word
      by_cases dead : (nfa.after word).active = []
      · refine ⟨0, Nat.zero_le _, fun pos early => absurd early (Nat.not_lt_zero pos), ?_, ?_⟩
        · intro _
          rw [List.take_zero, List.append_nil]
          exact exact.active_eq_nil_iff.mp dead
        · simp [traceFrom_of_dead dead]
      · obtain ⟨k, within, alive, ends, records⟩ := ih (word ++ [c])
        have onward : ∀ pos, word ++ [c] ++ rest.take pos = word ++ (c :: rest).take (pos + 1) := by
          intro pos
          rw [List.append_assoc, List.singleton_append, List.take_succ_cons]
        refine ⟨k + 1, Nat.succ_le_succ within, ?_, ?_, ?_⟩
        · intro pos early
          cases pos with
          | zero =>
              rw [List.take_zero, List.append_nil, Set.nonempty_iff_ne_empty, ne_eq,
                ← exact.active_eq_nil_iff]
              exact dead
          | succ pos =>
              rw [← onward]
              exact alive pos (Nat.lt_of_succ_lt_succ early)
        · intro early
          rw [← onward]
          exact ends (Nat.lt_of_succ_lt_succ early)
        · rw [List.length_append, List.length_singleton, List.append_assoc,
            List.singleton_append] at records
          rw [traceFrom_of_alive dead, ← after_concat, records, List.take_succ_cons,
            List.zipIdx_cons, List.map_cons, record_next, List.cons_append]
          simp only [List.length_cons, Nat.add_lt_add_iff_right, Nat.add_assoc, Nat.add_comm 1]

/-! ## Giving up -/

/-- **Where no test is left, no longer word is accepted.** -/
theorem run_eq_false_of_testsAfter {word : List Char} (dead : nfa.testsAfter word = ∅) (c : Char)
    (rest : List Char) : nfa.run (word ++ c :: rest) = false := by
  rw [← Bool.not_eq_true, run_eq_true_iff]
  intro accepts
  obtain ⟨i, a, out, here, _, before, _⟩ := Path.cut accepts
  obtain ⟨inTable, _⟩ := Array.getElem?_eq_some_iff.mp here
  have member : (⟨i, inTable⟩ : Fin nfa.states.size) ∈ nfa.testsAfter word :=
    ⟨before, a, out, here⟩
  rw [dead] at member
  exact member

/-! ## Every automaton -/

/-- **What a run goes through, and what it records.**

In every automaton that a sequence builds the frontier after any word lists the tests at the ends of
the word's paths, each one once, and accepts exactly if one of the paths does.  It comes about step
by step in two buffers, whatever the one that is filled has held before.

Over a subject the trace has one record for each character up to the end, or up to the first place
where no test is left, with the number of the tests after the character.  If there is such a place
before the end, the trace ends with it, and neither the subject nor any other word that goes on
there is accepted. -/
theorem trace_ofPostfix {tokens : List Token} (builds : Nfa.ofPostfix tokens = .ok nfa) :
    (nfa.initial? = some (nfa.after []) ∧
      ∀ word c spare, nfa.step? (nfa.after word) spare c = some (nfa.after (word ++ [c]))) ∧
    (∀ word, nfa.Exact word (nfa.after word)) ∧
    ∀ subject : List Char, ∃ k ≤ subject.length,
      (∀ pos < k, (nfa.testsAfter (subject.take pos)).Nonempty) ∧
      nfa.trace subject = (subject.take k).zipIdx.map (nfa.record subject) ++
        (if k < subject.length then [.died k] else []) ∧
      (k < subject.length → nfa.testsAfter (subject.take k) = ∅ ∧ nfa.run subject = false ∧
        ∀ c rest, nfa.run (subject.take k ++ c :: rest) = false) := by
  have wired := Nfa.wired_ofPostfix builds
  refine ⟨⟨initial?_eq wired, fun word c spare => ?_⟩, nfa.exact_after, fun subject => ?_⟩
  · rw [step?_eq wired, after_concat]
  · obtain ⟨k, within, alive, ends, records⟩ := nfa.traceFrom_after [] subject
    simp only [List.nil_append, List.length_nil, Nat.zero_add] at alive ends records
    refine ⟨k, within, alive, records, fun early => ?_⟩
    have dead := run_eq_false_of_testsAfter (ends early)
    refine ⟨ends early, ?_, dead⟩
    have here := dead subject[k] (subject.drop (k + 1))
    rwa [← List.drop_eq_getElem_cons early, List.take_append_drop] at here

/-- The automaton of `(a*)*` has a cycle of splits, on which its one test is reached in two ways. -/
theorem trace_ofPostfix_splitCycle :
    ∃ nfa, Nfa.ofPostfix [.atom (.char 'a' false), .quantifier .zeroOrMore,
        .quantifier .zeroOrMore] = .ok nfa ∧
      nfa.Exact ['a', 'b'] (nfa.after ['a', 'b']) ∧
      ∃ k ≤ 4, (∀ pos < k, (nfa.testsAfter (['a', 'b', 'a', 'a'].take pos)).Nonempty) ∧
        nfa.trace ['a', 'b', 'a', 'a'] =
          (['a', 'b', 'a', 'a'].take k).zipIdx.map (nfa.record ['a', 'b', 'a', 'a']) ++
            (if k < 4 then [.died k] else []) ∧
        (k < 4 → nfa.testsAfter (['a', 'b', 'a', 'a'].take k) = ∅ ∧
          nfa.run ['a', 'b', 'a', 'a'] = false ∧
          ∀ c rest, nfa.run (['a', 'b', 'a', 'a'].take k ++ c :: rest) = false) := by
  cases builds : Nfa.ofPostfix [.atom (.char 'a' false), .quantifier .zeroOrMore,
      .quantifier .zeroOrMore] with
  | error e => cases builds
  | ok nfa =>
      obtain ⟨_, exact, traced⟩ := Nfa.trace_ofPostfix builds
      exact ⟨nfa, rfl, exact _, traced ['a', 'b', 'a', 'a']⟩

/-- After the `a` its test is listed once, after the `b` no test is left. -/
example : (Nfa.ofPostfix [.atom (.char 'a' false), .quantifier .zeroOrMore,
    .quantifier .zeroOrMore]).map (fun nfa => nfa.trace ['a', 'b', 'a', 'a']) =
      .ok [.advanced 'a' 0 1, .advanced 'b' 1 0, .died 2] := by
  cbv

end Nfa

end RegexAutomaton
