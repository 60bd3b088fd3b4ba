import Mathlib.Data.List.Sort
import RegexAutomaton.CharClass
import RegexAutomaton.Pattern.Bracket

/-!
# Bracket contents, segment by segment

What bracket contents stand for is told by cutting them into segments from the left: where a dash
stands in second place and a character in third, these three are a segment and stand for all
characters from the first to the third, and otherwise the first character is a segment and stands
for itself (`segmentation`).

The reader of bracket contents does not cut.  It holds back two characters and looks at each triple
that comes about.  The characters held back, with those still to come behind them, always have
the segmentation that is left to be released (`Window.release_eq_segmentation`).

The characters of a segment are given here by what they are, as those of all characters that lie
between its ends (`between`).  An interval lists the same ones, since two ascending lists with
the same members are equal.
-/

set_option autoImplicit false

namespace RegexAutomaton.Pattern.Bracket

/-! ## Characters between two others -/

/-- All characters, ascending. -/
def allChars : List Char := (List.range 0x110000).filterMap charOfNat?

theorem mem_allChars (c : Char) : c ∈ allChars := by
  have valid := toNat_not_surrogate c
  refine List.mem_filterMap.mpr ⟨c.toNat, List.mem_range.mpr ?_, charOfNat?_eq_some_iff.mpr rfl⟩
  omega

theorem pairwise_allChars : allChars.Pairwise (· < ·) := pairwise_charOfNat? List.pairwise_lt_range

/-- All characters from one to another, ascending. -/
def between (low high : Char) : List Char := allChars.filter fun c => low ≤ c ∧ c ≤ high

@[simp] theorem mem_between {c low high : Char} : c ∈ between low high ↔ low ≤ c ∧ c ≤ high := by
  simp [between, mem_allChars]

theorem pairwise_between (low high : Char) : (between low high).Pairwise (· < ·) :=
  pairwise_allChars.filter _

/-- **An interval lists the characters between its ends.** -/
theorem toList_eq_between (i : CharInterval) : i.toList = between i.low i.high := by
  refine i.pairwise_toList.eq_of_mem_iff (pairwise_between _ _) fun c => ?_
  rw [CharInterval.mem_toList, mem_between]
  rfl

theorem toList_single (c : Char) : (CharInterval.single c).toList = [c] := by
  refine (CharInterval.pairwise_toList _).eq_of_mem_iff (List.pairwise_singleton _ c) fun d => ?_
  rw [CharInterval.mem_toList, CharInterval.mem_single, List.mem_singleton]

/-- Nothing lies between two characters in the wrong order, and they are no ends of an interval. -/
theorem flatMap_between? (low high : Char) :
    (CharInterval.between? low high).toList.flatMap CharInterval.toList = between low high := by
  rw [CharInterval.between?]
  split
  · simp [toList_eq_between]
  · rename_i reversed
    symm
    rw [Option.toList_none, List.flatMap_nil, List.eq_nil_iff_forall_not_mem]
    intro c member
    rw [mem_between] at member
    exact reversed (Char.le_trans member.1 member.2)

/-! ## Segments -/

/-- The characters that bracket contents stand for, segment by segment. -/
def segmentation : List Char → List Char
  | first :: '-' :: last :: rest => between first last ++ segmentation rest
  | first :: rest => first :: segmentation rest
  | [] => []

theorem segmentation_dash (first last : Char) (rest : List Char) :
    segmentation (first :: '-' :: last :: rest) = between first last ++ segmentation rest := by
  rw [segmentation]

theorem segmentation_single {first second : Char} (noDash : second ≠ '-') (rest : List Char) :
    segmentation (first :: second :: rest) = first :: segmentation (second :: rest) := by
  rw [segmentation]
  intro last others same
  exact noDash (List.cons.inj same).1

/-- **What a window releases** is the segmentation of what it holds back and of what is still to
come. -/
theorem Window.release_eq_segmentation (w : Window) (rest : List Char) :
    (w.release rest).flatMap CharInterval.toList = segmentation (w.toList ++ rest) := by
  induction rest generalizing w with
  | nil =>
      rw [release, List.append_nil]
      cases w with
      | empty => rfl
      | one first => simp [toList, toList_single, segmentation]
      | two first second => simp [toList, toList_single, segmentation]
  | cons c rest ih =>
      rw [release, List.flatMap_append, ih]
      cases w with
      | empty => rfl
      | one first => rfl
      | two first second =>
          rw [push]
          split
          · rename_i dash
            subst dash
            show (CharInterval.between? first c).toList.flatMap CharInterval.toList ++ _ = _
            rw [flatMap_between?]
            exact (segmentation_dash first c rest).symm
          · rename_i noDash
            show [CharInterval.single first].flatMap CharInterval.toList ++ _ = _
            rw [List.flatMap_singleton, toList_single]
            exact (segmentation_single noDash (c :: rest)).symm

/-! ## Bracket contents -/

/-- The contents without one caret in front. -/
def withoutCaret (contents : List Char) : List Char :=
  if contents.head? = some '^' then contents.tail else contents

theorem splitCaret_eq (contents : List Char) :
    splitCaret contents = (decide (contents.head? = some '^'), withoutCaret contents) := by
  unfold splitCaret withoutCaret
  split
  · rfl
  · rename_i noCaret
    cases contents with
    | nil => rfl
    | cons c rest =>
        have other : c ≠ '^' := by
          rintro rfl
          exact noCaret rest rfl
        simp [other]

/-- **Bracket contents stand for their segments.** The list is that of the segments from left to
right, and a class accepts a character that occurs in a segment, or, if a caret comes first, one
that does not. -/
theorem expand_eq_segmentation (contents : List Char) :
    expand contents = segmentation contents ∧
    ∀ c, (toClass contents).accepts c = true ↔
      ¬(c ∈ segmentation (withoutCaret contents) ↔ contents.head? = some '^') := by
  have expands : ∀ contents, expand contents = segmentation contents :=
    Window.empty.release_eq_segmentation
  refine ⟨expands contents, fun c => ?_⟩
  rw [toClass, CharClass.accepts_iff, splitCaret_eq, mem_members, expands]
  by_cases caret : contents.head? = some '^'
  · simp [caret]
  · simp [caret]

/-- A dash may end a segment, begin one, or stand for itself where nothing is left to end it. -/
example : expand ['x', '-', 'z', '-', '-', '/', '-'] = ['x', 'y', 'z', '-', '.', '/', '-'] ∧
    expand ['z', '-', 'a'] = [] := by
  decide

end RegexAutomaton.Pattern.Bracket
