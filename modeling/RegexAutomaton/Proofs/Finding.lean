import RegexAutomaton.Proofs.Anchoring
import RegexAutomaton.Proofs.Grammar

/-!
# Where the branches of a tree are found

A missing anchor is read as `.*`, spliced into the text.  In the tree this is one more
item, in front of the first branch or behind the last one (`Alternation.prepend`,
`Alternation.append`), because a bar binds looser than the `.*` beside it.  The tree
with these items has the words in which the first branch is found after anything, the
last branch before anything, and every other end of a branch is tied to the end of the
word (`Alternation.Finds`, `Alternation.mem_language_surround`).

For a text that ends in a caret, the caret waits for the dot of the `.*` behind it.  A
negated dot accepts nothing, so the end of the last branch is tied as well.
-/

set_option autoImplicit false

namespace RegexAutomaton.Grammar

open Computability
open Passage (carets)

/-! ## Any characters, or none -/

/-- The item `.*`, with its dot negated or not. -/
def Item.anything (negate : Bool) : Item := .repeated (.any negate) .zeroOrMore

theorem Item.passage_anything (waiting : Bool) :
    (Item.anything waiting).passage waiting Pattern.anything false :=
  ⟨['.'], ['*'], false, rfl,
    ⟨[], ['.'], waiting, rfl, Passage.carets_nil waiting, rfl, rfl, rfl⟩,
    [], ['*'], false, rfl, Passage.carets_nil false, rfl, rfl⟩

/-- All words if the end is open, and otherwise the empty word. -/
def around (isOpen : Bool) : Language Char := if isOpen then ⊤ else 1

theorem mem_around {isOpen : Bool} {word : List Char} :
    word ∈ around isOpen ↔ word = [] ∨ isOpen = true := by
  cases isOpen with
  | true => exact iff_of_true trivial (.inr rfl)
  | false => simp [around, Language.mem_one]

theorem Item.language_anything (negate : Bool) :
    (Item.anything negate).language = around !negate := by
  cases negate with
  | false =>
      apply Set.eq_univ_of_forall
      intro word
      refine Language.mem_kstar.mpr ⟨word.map fun c => [c], ?_, ?_⟩
      · exact (List.flatMap_singleton' word).symm
      · intro piece member
        obtain ⟨c, _, rfl⟩ := List.mem_map.mp member
        exact ⟨c, rfl, rfl⟩
  | true =>
      have none : (Base.any true).language = 0 := by
        apply Set.eq_empty_of_forall_notMem
        intro word member
        obtain ⟨c, accepts, _⟩ := Atom.mem_language.mp member
        cases accepts
      rw [Item.anything, Item.language, none]
      exact kstar_zero

/-! ## One more item at an end -/

/-- One more item in front of the branch. -/
def Branch.prepend (item : Item) : Branch → Branch
  | .one first => .snoc (.one item) first
  | .snoc before last => .snoc (before.prepend item) last

/-- One more item in front of the first branch. -/
def Alternation.prepend (item : Item) : Alternation → Alternation
  | .one branch => .one (branch.prepend item)
  | .more branch others => .more (branch.prepend item) others

/-- One more item behind the last branch. -/
def Alternation.append (item : Item) : Alternation → Alternation
  | .one branch => .one (.snoc branch item)
  | .more branch others => .more branch (others.append item)

section Ends

variable (item : Item)

theorem Branch.passage_prepend (branch : Branch) :
    (branch.prepend item).passage = item.passage.andThen branch.passage := by
  induction branch with
  | one first => rfl
  | snoc before last ih =>
      rw [Branch.prepend, Branch.passage, ih, Passage.andThen_assoc]
      rfl

theorem Alternation.passage_prepend (tree : Alternation) :
    (tree.prepend item).passage = item.passage.andThen tree.passage := by
  cases tree <;> simp only [Alternation.prepend, Alternation.passage, Branch.passage_prepend,
    Passage.andThen_assoc]

/-- Carets in front of an item may be written with what stands before it. -/
theorem Item.carets_andThen_passage : carets.andThen item.passage = item.passage := by
  cases item with
  | once base => rw [Item.passage, ← Passage.andThen_assoc, Passage.carets_andThen_carets]
  | repeated base q =>
      rw [Item.passage, ← Passage.andThen_assoc, ← Passage.andThen_assoc carets carets,
        Passage.carets_andThen_carets]

theorem Alternation.passage_append (tree : Alternation) :
    (tree.append item).passage = tree.passage.andThen (item.passage.andThen carets) := by
  induction tree with
  | one branch =>
      simp only [Alternation.append, Alternation.passage, Branch.passage, Passage.andThen_assoc]
      rw [← Passage.andThen_assoc carets, item.carets_andThen_passage]
  | more branch others ih =>
      simp only [Alternation.append, Alternation.passage, ih, Passage.andThen_assoc]

variable {item} {allowed : Base → Prop} (itemAllowed : item.RepeatsOnly allowed)
include itemAllowed

theorem Branch.repeatsOnly_prepend {branch : Branch}
    (branchAllowed : branch.RepeatsOnly allowed) : (branch.prepend item).RepeatsOnly allowed := by
  induction branch with
  | one first => exact ⟨itemAllowed, branchAllowed⟩
  | snoc before last ih => exact ⟨ih branchAllowed.1, branchAllowed.2⟩

theorem Alternation.repeatsOnly_prepend {tree : Alternation}
    (treeAllowed : tree.RepeatsOnly allowed) : (tree.prepend item).RepeatsOnly allowed := by
  cases tree with
  | one branch => exact branch.repeatsOnly_prepend itemAllowed treeAllowed
  | more branch others =>
      exact ⟨branch.repeatsOnly_prepend itemAllowed treeAllowed.1, treeAllowed.2⟩

theorem Alternation.repeatsOnly_append {tree : Alternation}
    (treeAllowed : tree.RepeatsOnly allowed) : (tree.append item).RepeatsOnly allowed := by
  induction tree with
  | one branch => exact ⟨treeAllowed, itemAllowed⟩
  | more branch others ih => exact ⟨treeAllowed.1, ih treeAllowed.2⟩

end Ends

/-! ## Where branches are found -/

/-- Somewhere in the word there is a word of a branch.  It starts where the word starts,
unless the branch is the first one and the start is open, and it ends where the word ends,
unless the branch is the last one and the end is open. -/
def Alternation.Finds (tree : Alternation) (openStart openEnd : Bool) (word : List Char) : Prop :=
  ∃ (i : Nat) (branch : Branch) (before middle after : List Char),
    tree.branches[i]? = some branch ∧ word = before ++ middle ++ after ∧
      middle ∈ branch.language ∧ (before = [] ∨ i = 0 ∧ openStart = true) ∧
      (after = [] ∨ i + 1 = tree.branches.length ∧ openEnd = true)

/-- Somewhere in the word there is a word of a branch. -/
def Alternation.Occurs (tree : Alternation) (word : List Char) : Prop :=
  ∃ before middle after : List Char, word = before ++ middle ++ after ∧ middle ∈ tree.language

/-- The words of the branches, with more before the first branch and behind the last one. -/
def Alternation.between (before after : Language Char) : Alternation → Language Char
  | .one branch => before * branch.language * after
  | .more branch others => before * branch.language + others.between 1 after

theorem Alternation.between_one (tree : Alternation) : tree.between 1 1 = tree.language := by
  induction tree with
  | one branch => rw [Alternation.between, one_mul, mul_one, Alternation.language]
  | more branch others ih => rw [Alternation.between, one_mul, ih, Alternation.language]

theorem Branch.language_prepend (item : Item) (branch : Branch) :
    (branch.prepend item).language = item.language * branch.language := by
  induction branch with
  | one first => rfl
  | snoc before last ih =>
      rw [Branch.prepend, Branch.language, ih, mul_assoc]
      rfl

theorem Alternation.between_prepend (item : Item) (before after : Language Char)
    (tree : Alternation) :
    (tree.prepend item).between before after = tree.between (before * item.language) after := by
  cases tree <;> rw [Alternation.prepend, Alternation.between, Branch.language_prepend,
    Alternation.between, ← mul_assoc]

theorem Alternation.between_append (item : Item) (before after : Language Char)
    (tree : Alternation) :
    (tree.append item).between before after = tree.between before (item.language * after) := by
  induction tree generalizing before with
  | one branch =>
      rw [Alternation.append, Alternation.between, Branch.language, Alternation.between]
      simp only [mul_assoc]
  | more branch others ih => rw [Alternation.append, Alternation.between, ih, Alternation.between]

theorem mem_around_mul {l : Language Char} {openStart openEnd : Bool} {word : List Char} :
    word ∈ around openStart * l * around openEnd ↔
      ∃ before middle after, word = before ++ middle ++ after ∧ middle ∈ l ∧
        (before = [] ∨ openStart = true) ∧ (after = [] ∨ openEnd = true) := by
  constructor
  · rintro ⟨_, ⟨before, start, middle, member, rfl⟩, after, stop, rfl⟩
    exact ⟨before, middle, after, rfl, member, mem_around.mp start, mem_around.mp stop⟩
  · rintro ⟨before, middle, after, rfl, member, start, stop⟩
    exact ⟨_, ⟨before, mem_around.mpr start, middle, member, rfl⟩, after, mem_around.mpr stop, rfl⟩

theorem Alternation.length_branches_pos (tree : Alternation) : 0 < tree.branches.length := by
  cases tree <;> simp [Alternation.branches]

theorem Alternation.finds_one_iff {branch : Branch} {openStart openEnd : Bool}
    {word : List Char} : (Alternation.one branch).Finds openStart openEnd word ↔
      word ∈ around openStart * branch.language * around openEnd := by
  rw [mem_around_mul]
  constructor
  · rintro ⟨i, found, before, middle, after, here, same, member, start, stop⟩
    obtain ⟨_, rfl⟩ : i = 0 ∧ branch = found := by
      cases i <;> simp_all [Alternation.branches]
    exact ⟨before, middle, after, same, member, start.imp_right And.right, stop.imp_right And.right⟩
  · rintro ⟨before, middle, after, same, member, start, stop⟩
    exact ⟨0, branch, before, middle, after, rfl, same, member,
      start.imp_right fun isOpen => ⟨rfl, isOpen⟩, stop.imp_right fun isOpen => ⟨rfl, isOpen⟩⟩

/-- The first branch ends where the word ends, and the others start where it starts. -/
theorem Alternation.finds_more_iff {branch : Branch} {others : Alternation}
    {openStart openEnd : Bool} {word : List Char} :
    (Alternation.more branch others).Finds openStart openEnd word ↔
      word ∈ around openStart * branch.language * around false ∨
        others.Finds false openEnd word := by
  rw [mem_around_mul]
  have length : (Alternation.more branch others).branches.length = others.branches.length + 1 := rfl
  constructor
  · rintro ⟨i, found, before, middle, after, here, same, member, start, stop⟩
    cases i with
    | zero =>
        obtain rfl : branch = found := Option.some.inj here
        have last : ¬0 + 1 = (Alternation.more branch others).branches.length := by
          have := others.length_branches_pos
          omega
        exact .inl ⟨before, middle, after, same, member, start.imp_right And.right,
          .inl (stop.resolve_right fun h => last h.1)⟩
    | succ i =>
        refine .inr ⟨i, found, before, middle, after, here, same, member, ?_, ?_⟩
        · exact .inl (start.resolve_right fun h => absurd h.1 i.succ_ne_zero)
        · exact stop.imp_right fun h => ⟨Nat.succ.inj (h.1.trans length), h.2⟩
  · rintro (⟨before, middle, after, same, member, start, stop⟩ |
      ⟨i, found, before, middle, after, here, same, member, start, stop⟩)
    · exact ⟨0, branch, before, middle, after, rfl, same, member,
        start.imp_right fun isOpen => ⟨rfl, isOpen⟩, .inl (stop.resolve_right Bool.false_ne_true)⟩
    · refine ⟨i + 1, found, before, middle, after, here, same, member, ?_, ?_⟩
      · exact .inl (start.resolve_right fun h => absurd h.2 Bool.false_ne_true)
      · exact stop.imp_right fun h => ⟨congrArg Nat.succ h.1, h.2⟩

theorem Alternation.finds_iff (tree : Alternation) {openStart openEnd : Bool}
    {word : List Char} : tree.Finds openStart openEnd word ↔
      word ∈ tree.between (around openStart) (around openEnd) := by
  induction tree generalizing openStart with
  | one branch => exact Alternation.finds_one_iff
  | more branch others ih =>
      rw [Alternation.finds_more_iff, ih, Alternation.between]
      simp only [around, Bool.false_eq_true, if_false, mul_one]
      rfl

theorem Alternation.finds_false_iff {tree : Alternation} {word : List Char} :
    tree.Finds false false word ↔ word ∈ tree.language := by
  rw [tree.finds_iff, ← Alternation.between_one]
  rfl

theorem Alternation.mem_language_iff {tree : Alternation} {word : List Char} :
    word ∈ tree.language ↔ ∃ branch ∈ tree.branches, word ∈ branch.language := by
  induction tree with
  | one branch => simp [Alternation.language, Alternation.branches]
  | more branch others ih =>
      rw [Alternation.language, Language.mem_add, ih, Alternation.branches]
      simp only [List.mem_cons, exists_eq_or_imp]

/-- What is found occurs. -/
theorem Alternation.Finds.occurs {tree : Alternation} {openStart openEnd : Bool}
    {word : List Char} (finds : tree.Finds openStart openEnd word) : tree.Occurs word := by
  obtain ⟨i, branch, before, middle, after, here, same, member, _⟩ := finds
  exact ⟨before, middle, after, same,
    tree.mem_language_iff.mpr ⟨branch, List.mem_of_getElem? here, member⟩⟩

/-- A single branch with both ends open is found wherever it occurs. -/
theorem Alternation.Occurs.finds {tree : Alternation} (single : tree.branches.length = 1)
    {word : List Char} (occurs : tree.Occurs word) : tree.Finds true true word := by
  cases tree with
  | one branch =>
      obtain ⟨before, middle, after, same, member⟩ := occurs
      exact Alternation.finds_one_iff.mpr (mem_around_mul.mpr
        ⟨before, middle, after, same, member, .inr rfl, .inr rfl⟩)
  | more branch others =>
      have more := others.length_branches_pos
      have length : others.branches.length + 1 = 1 := single
      omega

/-! ## Missing anchors -/

/-- The tree with `.*` in place of missing anchors. -/
def Alternation.surround (tree : Alternation) (caret dollar waiting : Bool) : Alternation :=
  let started := if caret then tree else tree.prepend (.anything false)
  if dollar then started else started.append (.anything waiting)

section Surround

variable (tree : Alternation) (caret dollar : Bool) {waiting : Bool}

theorem Alternation.admissible_surround (admissible : tree.Admissible) :
    (tree.surround caret dollar waiting).Admissible := by
  have anything : ∀ negate, (Item.anything negate).RepeatsOnly fun base => ¬base.OperatorEnded :=
    fun _ => ⟨id, trivial⟩
  have started := Alternation.repeatsOnly_prepend (anything false) admissible
  cases caret <;> cases dollar
  · exact Alternation.repeatsOnly_append (anything waiting) started
  · exact started
  · exact Alternation.repeatsOnly_append (anything waiting) admissible
  · exact admissible

theorem Alternation.renders_surround {body : List Char}
    (passage : tree.passage false body waiting) :
    (tree.surround caret dollar waiting).LooselyRenders
      (Pattern.anythingUnless caret ++ body ++ Pattern.anythingUnless dollar) := by
  have started : (if caret then tree else tree.prepend (.anything false)).passage false
      (Pattern.anythingUnless caret ++ body) waiting := by
    cases caret with
    | true => exact passage
    | false =>
        rw [if_neg Bool.false_ne_true, Alternation.passage_prepend]
        exact ⟨Pattern.anything, body, false, rfl, Item.passage_anything false, passage⟩
  cases dollar with
  | true => exact ⟨waiting, (List.append_nil _).symm ▸ started⟩
  | false =>
      refine ⟨false, ?_⟩
      rw [Alternation.surround, if_neg Bool.false_ne_true, Alternation.passage_append]
      exact ⟨_, Pattern.anything, waiting, rfl, started, Pattern.anything, [], false,
        (List.append_nil _).symm, Item.passage_anything waiting, Passage.carets_nil false⟩

/-- **The tree with `.*` in place of missing anchors has the words that the tree finds a
branch in.** -/
theorem Alternation.mem_language_surround {word : List Char} :
    word ∈ (tree.surround caret dollar waiting).language ↔
      tree.Finds (!caret) (!dollar && !waiting) word := by
  rw [tree.finds_iff, ← Alternation.between_one]
  cases caret <;> cases dollar <;>
    simp [surround, between_append, between_prepend, Item.language_anything, around]

end Surround

end RegexAutomaton.Grammar
