import RegexAutomaton.Proofs.Grammar

/-!
# Texts of trees

How a tree of the grammar is written.  There are two notions.

**Strictly**, a negated test has one caret right in front of it, and no other carets
are written (`Alternation.Renders`).

**Loosely**, carets may stand between any two lexemes.  Whether a test is negated is told
by whether a caret waits for it: a caret waits from where it is written until the next
test of its own nesting level, past operators, bars and groups.  Pieces of text
therefore come with the flag of the waiting caret before and after them, and are put
together where the flags meet (`Passage`).

A strict text is a loose one at whose end no caret waits (`Alternation.passage_of_renders`).
-/

set_option autoImplicit false

namespace RegexAutomaton.Grammar

/-- The characters that do not stand for themselves unless they are escaped. -/
def metacharacters : List Char := ['\\', '[', '(', ')', '^', '|', '.', '+', '*', '?']

/-- The ways to write a character that stands for itself. -/
inductive WritesChar (c : Char) : List Char → Prop where
  | escaped : WritesChar c ['\\', c]
  | plain (ordinary : c ∉ metacharacters) : WritesChar c [c]

/-- Bracket contents between their brackets. -/
def BracketText.written (contents : BracketText) : List Char := '[' :: contents.text ++ [']']

/-- A text in parentheses. -/
def parenthesised (inner : List Char) : List Char := '(' :: inner ++ [')']

/-! ## Strict texts -/

/-- The caret in front of a negated test. -/
def caretIf (negate : Bool) : List Char := if negate then ['^'] else []

mutual
/-- The text writes the tree, with no carets but those of negated tests. -/
def Alternation.Renders : Alternation → List Char → Prop
  | .one branch, text => branch.Renders text
  | .more branch others, text =>
      ∃ front back, text = front ++ '|' :: back ∧ branch.Renders front ∧ others.Renders back

def Branch.Renders : Branch → List Char → Prop
  | .one item, text => item.Renders text
  | .snoc before item, text =>
      ∃ front back, text = front ++ back ∧ before.Renders front ∧ item.Renders back

def Item.Renders : Item → List Char → Prop
  | .once base, text => base.Renders text
  | .repeated base q, text => ∃ front, text = front ++ [q.toChar] ∧ base.Renders front

def Base.Renders : Base → List Char → Prop
  | .char c negate, text => ∃ written, text = caretIf negate ++ written ∧ WritesChar c written
  | .any negate, text => text = caretIf negate ++ ['.']
  | .brackets contents negate, text => text = caretIf negate ++ contents.written
  | .group inner, text => ∃ written, text = parenthesised written ∧ inner.Renders written
end

/-! ## Passages -/

/-- A set of texts, each with whether a caret waits before it and whether one waits after it. -/
def Passage : Type := Bool → List Char → Bool → Prop

namespace Passage

/-- The given text, which leaves a waiting caret alone. -/
def exactly (written : List Char) : Passage := fun waiting text after =>
  text = written ∧ after = waiting

/-- Any number of carets. -/
def carets : Passage := fun waiting text after =>
  (∀ c ∈ text, c = '^') ∧ after = (waiting || !text.isEmpty)

/-- A test, which is negated exactly when a caret waits for it, and uses the caret up. -/
def test (negate : Bool) (written : List Char → Prop) : Passage := fun waiting text after =>
  written text ∧ negate = waiting ∧ after = false

/-- One passage after the other. -/
def andThen (first second : Passage) : Passage := fun waiting text after =>
  ∃ front back between, text = front ++ back ∧ first waiting front between ∧
    second between back after

theorem andThen_assoc (first second third : Passage) :
    (first.andThen second).andThen third = first.andThen (second.andThen third) := by
  funext waiting text after
  refine propext ⟨?_, ?_⟩
  · rintro ⟨_, w, b, rfl, ⟨u, v, a, rfl, hu, hv⟩, hw⟩
    exact ⟨u, v ++ w, a, List.append_assoc .., hu, v, w, b, rfl, hv, hw⟩
  · rintro ⟨u, _, a, rfl, hu, v, w, b, rfl, hv, hw⟩
    exact ⟨u ++ v, w, b, (List.append_assoc ..).symm, ⟨u, v, a, rfl, hu, hv⟩, hw⟩

theorem exactly_nil_andThen (passage : Passage) : (exactly []).andThen passage = passage := by
  funext waiting text after
  refine propext ⟨?_, fun h => ⟨[], text, waiting, rfl, ⟨rfl, rfl⟩, h⟩⟩
  rintro ⟨_, back, _, rfl, ⟨rfl, rfl⟩, h⟩
  exact h

theorem andThen_exactly_nil (passage : Passage) : passage.andThen (exactly []) = passage := by
  funext waiting text after
  refine propext ⟨?_, fun h => ⟨text, [], after, (List.append_nil _).symm, h, rfl, rfl⟩⟩
  rintro ⟨front, _, _, rfl, h, rfl, rfl⟩
  rwa [List.append_nil]

theorem carets_nil (waiting : Bool) : carets waiting [] waiting := by
  simp [carets]

theorem carets_caretIf (negate : Bool) : carets false (caretIf negate) negate := by
  cases negate <;> simp [carets, caretIf]

/-- A run of carets may be cut anywhere. -/
theorem carets_andThen_carets : carets.andThen carets = carets := by
  funext waiting text after
  refine propext ⟨?_, fun h => ⟨[], text, waiting, rfl, carets_nil waiting, h⟩⟩
  rintro ⟨front, back, _, rfl, ⟨allFront, rfl⟩, allBack, rfl⟩
  constructor
  · intro c hc
    exact (List.mem_append.mp hc).elim (allFront c) (allBack c)
  · cases front <;> simp

end Passage

/-! ## Loose texts -/

open Passage (exactly carets test)

mutual
/-- The loose texts of a tree: carets stand in front of bases, operators and bars, and at the
end. -/
def Alternation.passage : Alternation → Passage
  | .one branch => branch.passage.andThen carets
  | .more branch others =>
      (branch.passage.andThen (carets.andThen (exactly ['|']))).andThen others.passage

def Branch.passage : Branch → Passage
  | .one item => item.passage
  | .snoc before item => before.passage.andThen item.passage

def Item.passage : Item → Passage
  | .once base => carets.andThen base.passage
  | .repeated base q => (carets.andThen base.passage).andThen (carets.andThen (exactly [q.toChar]))

/-- A group leaves a waiting caret alone, and forgets one that waits at its own end. -/
def Base.passage : Base → Passage
  | .char c negate => test negate (WritesChar c)
  | .any negate => test negate (· = ['.'])
  | .brackets contents negate => test negate (· = contents.written)
  | .group inner => fun waiting text after =>
      (∃ written last, text = parenthesised written ∧ inner.passage false written last) ∧
        after = waiting
end

/-- The text writes the tree, with carets anywhere between its lexemes. -/
def Alternation.LooselyRenders (tree : Alternation) (text : List Char) : Prop :=
  ∃ waiting, tree.passage false text waiting

mutual
/-- **A strict text is a loose one**, at whose end no caret waits. -/
theorem Alternation.passage_of_renders : ∀ (tree : Alternation) {text : List Char},
    tree.Renders text → tree.passage false text false
  | .one branch, text, renders => by
      exact ⟨text, [], false, (List.append_nil _).symm, branch.passage_of_renders renders,
        Passage.carets_nil false⟩
  | .more branch others, _, ⟨front, back, rfl, first, rest⟩ => by
      refine ⟨front ++ ['|'], back, false, by simp, ?_, others.passage_of_renders rest⟩
      exact ⟨front, ['|'], false, rfl, branch.passage_of_renders first,
        [], ['|'], false, rfl, Passage.carets_nil false, rfl, rfl⟩

theorem Branch.passage_of_renders : ∀ (branch : Branch) {text : List Char},
    branch.Renders text → branch.passage false text false
  | .one item, _, renders => item.passage_of_renders renders
  | .snoc before item, _, ⟨front, back, rfl, first, last⟩ =>
      ⟨front, back, false, rfl, before.passage_of_renders first, item.passage_of_renders last⟩

theorem Item.passage_of_renders : ∀ (item : Item) {text : List Char},
    item.Renders text → item.passage false text false
  | .once base, _, renders => base.passage_of_renders renders
  | .repeated base q, _, ⟨front, rfl, renders⟩ =>
      ⟨front, [q.toChar], false, rfl, base.passage_of_renders renders,
        [], [q.toChar], false, rfl, Passage.carets_nil false, rfl, rfl⟩

theorem Base.passage_of_renders : ∀ (base : Base) {text : List Char},
    base.Renders text → (carets.andThen base.passage) false text false
  | .char _ negate, _, ⟨written, rfl, writes⟩ =>
      ⟨_, written, negate, rfl, Passage.carets_caretIf negate, writes, rfl, rfl⟩
  | .any negate, _, rfl =>
      ⟨_, ['.'], negate, rfl, Passage.carets_caretIf negate, rfl, rfl, rfl⟩
  | .brackets contents negate, _, rfl =>
      ⟨_, contents.written, negate, rfl, Passage.carets_caretIf negate, rfl, rfl, rfl⟩
  | .group inner, _, ⟨written, rfl, renders⟩ =>
      ⟨[], _, false, rfl, Passage.carets_nil false,
        ⟨written, false, rfl, inner.passage_of_renders renders⟩, rfl⟩
end

/-! ## Properties of the texts of all trees -/

/-- A property that the lexemes of a pattern have, and that is kept when texts are joined and
put in parentheses. -/
structure Lexical (property : List Char → Prop) : Prop where
  nil : property []
  append : ∀ {front back : List Char}, property front → property back → property (front ++ back)
  single : ∀ c : Char, c ∉ ['\\', '[', '(', ')'] → property [c]
  escaped : ∀ c : Char, property ['\\', c]
  brackets : ∀ contents : BracketText, property contents.written
  parenthesised : ∀ {inner : List Char}, property inner → property (parenthesised inner)

section Lexical

variable {property : List Char → Prop} (lexical : Lexical property)
include lexical

theorem Lexical.of_all_caret {text : List Char} (all : ∀ c ∈ text, c = '^') : property text := by
  induction text with
  | nil => exact lexical.nil
  | cons c text ih =>
      have head : property [c] := by
        rw [all c List.mem_cons_self]
        apply lexical.single
        decide
      exact lexical.append head (ih fun d hd => all d (List.mem_cons_of_mem c hd))

theorem Lexical.of_writesChar {c : Char} {text : List Char} (writes : WritesChar c text) :
    property text := by
  cases writes with
  | escaped => exact lexical.escaped c
  | plain ordinary =>
      refine lexical.single c fun member => ordinary ?_
      simp only [metacharacters, List.mem_cons, List.not_mem_nil, or_false] at member ⊢
      rcases member with h | h | h | h <;> simp [h]

theorem Lexical.of_quantifier (q : Quantifier) : property [q.toChar] :=
  lexical.single q.toChar (by cases q <;> decide)

mutual
/-- **A lexical property holds of every text of every tree.** -/
theorem Alternation.lexical_of_passage : ∀ (tree : Alternation) {waiting after : Bool}
    {text : List Char}, tree.passage waiting text after → property text
  | .one branch, _, _, _, ⟨_, _, _, rfl, first, all, _⟩ =>
      lexical.append (branch.lexical_of_passage first) (lexical.of_all_caret all)
  | .more branch others, _, _, _,
      ⟨_, _, _, rfl, ⟨_, _, _, rfl, first, _, _, _, rfl, ⟨all, _⟩, rfl, _⟩, rest⟩ => by
      have bar : property ['|'] := lexical.single '|' (by decide)
      have carets := lexical.append (lexical.of_all_caret all) bar
      exact lexical.append (lexical.append (branch.lexical_of_passage first) carets)
        (others.lexical_of_passage rest)

theorem Branch.lexical_of_passage : ∀ (branch : Branch) {waiting after : Bool}
    {text : List Char}, branch.passage waiting text after → property text
  | .one item, _, _, _, reads => item.lexical_of_passage reads
  | .snoc before item, _, _, _, ⟨_, _, _, rfl, first, last⟩ =>
      lexical.append (before.lexical_of_passage first) (item.lexical_of_passage last)

theorem Item.lexical_of_passage : ∀ (item : Item) {waiting after : Bool} {text : List Char},
    item.passage waiting text after → property text
  | .once base, _, _, _, ⟨_, _, _, rfl, ⟨all, _⟩, reads⟩ =>
      lexical.append (lexical.of_all_caret all) (base.lexical_of_passage reads)
  | .repeated base q, _, _, _,
      ⟨_, _, _, rfl, ⟨_, _, _, rfl, ⟨all, _⟩, reads⟩, _, _, _, rfl, ⟨all', _⟩, rfl, _⟩ => by
      have front := lexical.append (lexical.of_all_caret all) (base.lexical_of_passage reads)
      exact lexical.append front
        (lexical.append (lexical.of_all_caret all') (lexical.of_quantifier q))

theorem Base.lexical_of_passage : ∀ (base : Base) {waiting after : Bool} {text : List Char},
    base.passage waiting text after → property text
  | .char _ _, _, _, _, ⟨writes, _⟩ => lexical.of_writesChar writes
  | .any _, _, _, _, ⟨rfl, _⟩ => lexical.single '.' (by decide)
  | .brackets contents _, _, _, _, ⟨rfl, _⟩ => lexical.brackets contents
  | .group inner, _, _, _, ⟨⟨_, _, rfl, reads⟩, _⟩ =>
      lexical.parenthesised (inner.lexical_of_passage reads)
end

end Lexical

end RegexAutomaton.Grammar
