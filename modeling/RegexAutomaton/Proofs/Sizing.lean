import RegexAutomaton.Proofs.Reading
import RegexAutomaton.Proofs.Shape
import RegexAutomaton.Regex

/-!
# Automata do not grow beyond their patterns

The number of states of an automaton is told by the tree that it is built from: every node makes a
state, except those that join two parts (`Expr.weight`, `Expr.size_assemble`).

A tree is no heavier than its text.  What has been read of a level is weighed with one more for each
bar, which is the node that sets the alternative before it against the others (`Level.weight`).  In
this way every lexeme adds at most what it is long: an atom, an operator and a bar one, a caret
nothing, and a group what its inner text adds (`Level.weight_take`).  The text of a group is read on
its own, but no character is read twice on the same level, so the weight of a whole text is bounded
by its length (`weight_le_of_parseLevel`).

So an automaton has at most as many states as its pattern has characters once the anchors are
made explicit (`Regex.size_nfa_le`).
-/

set_option autoImplicit false

namespace RegexAutomaton

/-! ## States of a tree -/

/-- The number of nodes of a tree that make a state. -/
def Expr.weight : Expr → Nat
  | .atom _ => 1
  | .repeated body _ => body.weight + 1
  | .cat left right => left.weight + right.weight
  | .alt left right => left.weight + right.weight + 1

/-- The number of states for a tree, or for none. -/
def Expr.weightOf : Option Expr → Nat
  | none => 0
  | some e => e.weight

/-- **The piece of a tree takes as many states as the tree weighs.** -/
theorem Expr.size_assemble (e : Expr) (states : Array State) :
    (e.assemble states).2.size = states.size + e.weight := by
  induction e generalizing states with
  | atom a => exact Array.size_push _
  | repeated body q ih => rw [assemble, size_repeated, ih, weight, Nat.add_assoc]
  | cat left right ihl ihr =>
      simp [assemble, Fragment.cat, ihr, ihl, weight, Nat.add_assoc]
  | alt left right ihl ihr =>
      simp [assemble, Fragment.alt, ihr, ihl, weight, Nat.add_assoc]

theorem Nfa.size_ofExpr (e : Option Expr) : (ofExpr e).states.size = Expr.weightOf e := by
  cases e with
  | none => rfl
  | some e => simp [ofExpr, ofFragment, Expr.size_assemble, Expr.weightOf]

/-! ## The weight of a text -/

namespace Pattern

/-- The weight of an alternative that is being read. -/
def Branch.weight (branch : Branch) : Nat := Expr.weightOf branch.before + branch.last.weight

theorem Branch.weight_expr (branch : Branch) : branch.expr.weight = branch.weight := by
  obtain ⟨before, last⟩ := branch
  cases before with
  | none => exact (Nat.zero_add _).symm
  | some items => rfl

theorem Branch.weight_push (branch : Option Branch) (item : Expr) :
    (push branch item).weight = branch.elim 0 weight + item.weight := by
  cases branch with
  | none => rfl
  | some branch => exact congrArg (· + item.weight) branch.weight_expr

namespace Level

variable {level next : Level}

/-- The weight of alternatives that are closed by a bar each, bars included. -/
def weightOfClosed : List Expr → Nat
  | [] => 0
  | e :: closed => e.weight + 1 + weightOfClosed closed

/-- The weight of what has been read of a level. -/
def weight (level : Level) : Nat :=
  weightOfClosed level.closed + level.branch.elim 0 Branch.weight

theorem weight_start : start.weight = 0 := rfl

theorem weight_pushAtom (level : Level) (a : Atom) :
    (level.pushAtom a).weight = level.weight + 1 := by
  rw [weight, pushAtom, Option.elim_some, Branch.weight_push, ← Nat.add_assoc]
  rfl

theorem weight_pushGroup (level : Level) (e : Expr) :
    (level.pushGroup e).weight = level.weight + e.weight := by
  rw [weight, pushGroup, Option.elim_some, Branch.weight_push, ← Nat.add_assoc]
  rfl

theorem weight_repeatLast {q : Quantifier} (repeats : level.repeatLast q = .ok next) :
    next.weight = level.weight + 1 := by
  unfold repeatLast at repeats
  split at repeats
  · cases repeats
  · rename_i branch here
    split at repeats
    · cases repeats
    · cases repeats
      simp [weight, here, Branch.weight, Expr.weight, Nat.add_assoc]

theorem weight_closeBranch (closes : level.closeBranch = .ok next) :
    next.weight = level.weight + 1 := by
  unfold closeBranch at closes
  split at closes
  · cases closes
  · rename_i branch here
    cases closes
    simp only [weight, here, weightOfClosed, branch.weight_expr, Option.elim_none,
      Option.elim_some]
    omega

/-- Setting alternatives against one another adds what their bars weigh. -/
theorem weight_foldl_alt (closed : List Expr) (e : Expr) :
    (closed.foldl (fun others e => .alt e others) e).weight =
      weightOfClosed closed + e.weight := by
  induction closed generalizing e with
  | nil => exact (Nat.zero_add _).symm
  | cons first closed ih =>
      rw [List.foldl_cons, ih, weightOfClosed, Expr.weight]
      omega

theorem weight_finish {e : Expr} (finishes : level.finish = .ok (some e)) :
    e.weight = level.weight := by
  obtain ⟨closed, _ | branch, caret⟩ := level
  · cases closed <;> cases finishes
  · cases finishes
    rw [weight_foldl_alt, branch.weight_expr]
    rfl

/-- **A lexeme adds no more than it is long**, if that holds of the text in a group. -/
theorem weight_take {lexeme : Lexeme} (takes : level.take lexeme = .ok next)
    (inside : ∀ e, parseWhole lexeme.inner = .ok (some e) → e.weight ≤ lexeme.inner.length) :
    next.weight ≤ level.weight + 1 + lexeme.inner.length := by
  cases lexeme with
  | atom a =>
      cases takes
      exact Nat.le_of_eq (weight_pushAtom level a)
  | quantifier q => exact Nat.le_of_eq (weight_repeatLast takes)
  | bar => exact Nat.le_of_eq (weight_closeBranch takes)
  | caret =>
      cases takes
      exact Nat.le_succ level.weight
  | group inner =>
      simp only [take] at takes
      split at takes
      · cases takes
      · cases takes
      · rename_i e parses
        cases takes
        have bound : e.weight ≤ inner.length := inside e parses
        rw [weight_pushGroup, Lexeme.inner]
        omega

end Level

/-- **A tree weighs no more than the text that it is read from**, and what has been read before. -/
theorem weight_le_of_parseLevel (level : Level) (text : List Char) {e : Expr}
    (parses : parseLevel level text = .ok (some e)) : e.weight ≤ level.weight + text.length := by
  match text with
  | [] =>
      rw [parseLevel_nil] at parses
      exact Nat.le_of_eq (Level.weight_finish parses)
  | c :: text =>
      obtain ⟨lexeme, rest, next, reads, takes, parses⟩ := exists_take_of_parseLevel parses
      have consumed := Lexeme.read_length reads
      have grown := Level.weight_take takes fun inner parses => by
        have bound := weight_le_of_parseLevel .start lexeme.inner parses
        rwa [Level.weight_start, Nat.zero_add] at bound
      have onward := weight_le_of_parseLevel next rest parses
      rw [List.length_cons]
      omega
termination_by text.length
decreasing_by
  all_goals
    simp only [List.length_cons]
    omega

theorem length_anchored_le (text : List Char) : (anchored text).length ≤ text.length + 4 := by
  have started : (anchorStart text).length ≤ text.length + 2 := by
    unfold anchorStart
    split
    · rw [List.length_cons]
      omega
    · simp [anything]
  have ended : (anchorEnd (anchorStart text)).length ≤ (anchorStart text).length + 2 := by
    unfold anchorEnd
    split
    · rw [List.length_dropLast]
      omega
    · simp [anything]
  exact ended.trans (Nat.add_le_add_right started 2)

end Pattern

/-! ## Every pattern -/

/-- **An automaton does not grow beyond its pattern.** It has at most as many states as the pattern
has characters once its anchors are made explicit, and these are at most four more than the
characters of the pattern, however its groups, alternatives and operators are nested. -/
theorem Regex.size_nfa_le {pattern : String} {r : Regex} (compiled : compile pattern = .ok r) :
    r.nfa.states.size ≤ (Pattern.anchored pattern.toList).length ∧
      r.nfa.states.size ≤ pattern.length + 4 := by
  have bound : r.nfa.states.size ≤ (Pattern.anchored pattern.toList).length := by
    have parses := r.parse_source
    rw [source_of_compile compiled, Pattern.parse] at parses
    split at parses
    · cases parses
    · rw [r.nfa_eq, Nfa.size_ofExpr]
      cases tree : r.expr with
      | none => exact Nat.zero_le _
      | some e =>
          rw [tree] at parses
          have bound := Pattern.weight_le_of_parseLevel .start _ parses
          rwa [Pattern.Level.weight_start, Nat.zero_add] at bound
  exact ⟨bound, bound.trans (Pattern.length_anchored_le pattern.toList)⟩

/-- Nested groups of which two are repeated, with an alternative inside. -/
theorem Regex.size_nfa_le_nested_groups :
    ∃ r, compile "((a|b)*c)+" = .ok r ∧
      r.nfa.states.size ≤ (Pattern.anchored "((a|b)*c)+".toList).length ∧
      r.nfa.states.size ≤ "((a|b)*c)+".length + 4 := by
  cases compiled : compile "((a|b)*c)+" with
  | error reason =>
      have parses : ∃ e, Pattern.parse "((a|b)*c)+".toList = .ok e := ⟨_, by cbv⟩
      rw [compile_eq_error_iff.mp compiled] at parses
      obtain ⟨e, parses⟩ := parses
      cases parses
  | ok r => exact ⟨r, rfl, Regex.size_nfa_le compiled⟩

/-- The bound is attained: each character of `.*a|b.*` makes a state. -/
example : (Pattern.parse "a|b".toList).map (fun e => (Nfa.ofExpr e).states.size) =
    .ok ("a|b".length + 4) := by
  cbv

end RegexAutomaton
