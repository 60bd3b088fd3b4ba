import RegexAutomaton.Pattern.Parse
import RegexAutomaton.Proofs.Rendering

/-!
# Anchors are made explicit

A text of a tree never ends in a backslash that escapes nothing (`endsInEscape_of_passage`).
So a dollar sign put behind it is an anchor, whatever the text is, and the pattern
made of the text and of explicit anchors is read as the text itself with `.*` where an
anchor is missing (`parse_anchors`).
-/

set_option autoImplicit false

namespace RegexAutomaton

namespace Pattern

/-! ## Backslashes at the end -/

theorem endsInEscape_concat {c : Char} (other : c ≠ '\\') (text : List Char) :
    endsInEscape (text ++ [c]) = false := by
  simp [endsInEscape, trailingBackslashes, other]

/-- **Only what follows counts**, once no backslash waits for the character after it. -/
theorem endsInEscape_append {front : List Char} (complete : endsInEscape front = false)
    (back : List Char) : endsInEscape (front ++ back) = endsInEscape back := by
  simp only [endsInEscape, trailingBackslashes, List.reverse_append, List.takeWhile_append]
    at complete ⊢
  split
  · rename_i onlyBackslashes
    rw [onlyBackslashes, List.length_append, Nat.add_mod]
    simp only [beq_eq_false_iff_ne] at complete
    have even : (front.reverse.takeWhile (· == '\\')).length % 2 = 0 := by omega
    rw [even, Nat.add_zero, Nat.mod_mod]
  · rfl

theorem endsInAnchor_concat (text : List Char) :
    endsInAnchor (text ++ ['$']) = !endsInEscape text := by
  simp [endsInAnchor]

theorem endsInAnchor_append {front back : List Char} (complete : endsInEscape front = false)
    (nonempty : back ≠ []) : endsInAnchor (front ++ back) = endsInAnchor back := by
  rw [endsInAnchor, List.getLast?_append_of_ne_nil front nonempty,
    List.dropLast_append_of_ne_nil nonempty, endsInEscape_append complete, endsInAnchor]

/-! ## Explicit anchors -/

open Grammar (caretIf)

/-- The dollar sign behind a text that is tied to the end of the subject. -/
def dollarIf (tied : Bool) : List Char := if tied then ['$'] else []

/-- What a missing anchor stands for. -/
def anythingUnless (tied : Bool) : List Char := if tied then [] else anything

section Explicit

variable {body : List Char} {caret dollar : Bool}

theorem anchorStart_caretIf (start : caret = true ∨ body.head? ≠ some '^') :
    anchorStart (caretIf caret ++ body) = anythingUnless caret ++ body := by
  cases caret with
  | true => rfl
  | false =>
      have noCaret := start.resolve_left Bool.false_ne_true
      simp only [caretIf, anythingUnless, Bool.false_eq_true, if_false, List.nil_append]
      unfold anchorStart
      split
      · exact absurd rfl noCaret
      · rfl

theorem anchorEnd_dollarIf (complete : endsInEscape body = false)
    (stop : dollar = true ∨ endsInAnchor body = false) :
    anchorEnd (body ++ dollarIf dollar) = body ++ anythingUnless dollar := by
  cases dollar with
  | true =>
      have anchored : endsInAnchor (body ++ ['$']) = true := by
        rw [endsInAnchor_concat, complete]
        rfl
      simp [anchorEnd, dollarIf, anythingUnless, anchored]
  | false =>
      have noDollar := stop.resolve_left Bool.false_ne_true
      simp [anchorEnd, dollarIf, anythingUnless, noDollar]

theorem endsInEscape_anythingUnless (tied : Bool) : endsInEscape (anythingUnless tied) = false := by
  cases tied <;> rfl

/-- **A pattern with or without explicit anchors is read as its body**, with `.*` in place of
each anchor that it does not have. -/
theorem parse_anchors (complete : endsInEscape body = false)
    (start : caret = true ∨ body.head? ≠ some '^')
    (stop : dollar = true ∨ endsInAnchor body = false) :
    parse (caretIf caret ++ body ++ dollarIf dollar) =
      parseWhole (anythingUnless caret ++ body ++ anythingUnless dollar) := by
  have notEscape : endsInEscape (caretIf caret ++ body ++ dollarIf dollar) = false := by
    have front : endsInEscape (caretIf caret) = false := by cases caret <;> rfl
    have back : endsInEscape (dollarIf dollar) = false := by cases dollar <;> rfl
    rw [List.append_assoc, endsInEscape_append front, endsInEscape_append complete, back]
  have startBoth : caret = true ∨ (body ++ dollarIf dollar).head? ≠ some '^' := by
    apply start.imp_right
    intro noCaret
    cases body with
    | nil => cases dollar <;> simp [dollarIf]
    | cons c rest => exact noCaret
  have completeBoth : endsInEscape (anythingUnless caret ++ body) = false := by
    rw [endsInEscape_append (endsInEscape_anythingUnless caret), complete]
  have stopBoth : dollar = true ∨ endsInAnchor (anythingUnless caret ++ body) = false := by
    apply stop.imp_right
    intro noDollar
    by_cases empty : body = []
    · rw [empty]
      cases caret <;> rfl
    · rw [endsInAnchor_append (endsInEscape_anythingUnless caret) empty, noDollar]
  rw [parse, notEscape, anchored, List.append_assoc, anchorStart_caretIf startBoth,
    ← List.append_assoc, anchorEnd_dollarIf completeBoth stopBoth]
  rfl

end Explicit

end Pattern

namespace Grammar

open Pattern

theorem lexical_endsInEscape : Lexical fun text => endsInEscape text = false where
  nil := rfl
  append front back := by rw [endsInEscape_append front, back]
  single c ordinary := by
    have other : c ≠ '\\' := fun same => ordinary (same ▸ List.mem_cons_self)
    exact endsInEscape_concat other []
  escaped c := by
    by_cases same : c = '\\'
    · rw [same]
      rfl
    · exact endsInEscape_concat same ['\\']
  brackets contents := endsInEscape_concat (by decide) ('[' :: contents.text)
  parenthesised {inner} _ := endsInEscape_concat (by decide) ('(' :: inner)

/-- **No text of a tree ends in a backslash that escapes nothing.** -/
theorem Alternation.endsInEscape_of_passage (tree : Alternation) {waiting after : Bool}
    {text : List Char} (passage : tree.passage waiting text after) : endsInEscape text = false :=
  tree.lexical_of_passage lexical_endsInEscape passage

end Grammar

end RegexAutomaton
