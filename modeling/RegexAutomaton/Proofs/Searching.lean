import RegexAutomaton.Proofs.Construction
import RegexAutomaton.Proofs.Finding
import RegexAutomaton.Proofs.Recovery
import RegexAutomaton.Regex

/-!
# What a pattern matches

A pattern is a body with or without explicit anchors.  It matches the subjects in which
the tree of its body is found, with an open end where an anchor is missing
(`isMatch_of_passage`).  For bodies that are strict texts of trees this is the meaning of
the pattern (`isMatch_of_renders`).

**Searching.**  A pattern without anchors is searched for in a subject if it matches
exactly when some part of the subject is matched by the pattern with both anchors
(`Searches`).  This holds for a single branch at whose end no caret waits.  With more
branches, or with a caret at the end, an occurrence may be missed, and
`isMatch_unanchored` says which ones.
-/

set_option autoImplicit false

namespace RegexAutomaton

open Grammar
open Pattern (dollarIf endsInAnchor endsInEscape parse parseWhole parse_anchors)

theorem Nfa.run_ofExpr_iff {e : Option Expr} {word : List Char} :
    (Nfa.ofExpr e).run word = true ↔ word ∈ Expr.languageOf e := by
  rw [Nfa.run_eq_true_iff, Nfa.accepts_ofExpr_iff]

/-- The pattern of a body and of explicit anchors. -/
def withAnchors (caret dollar : Bool) (body : String) : String :=
  (if caret then "^" else "") ++ body ++ (if dollar then "$" else "")

theorem toList_withAnchors (caret dollar : Bool) (body : String) :
    (withAnchors caret dollar body).toList =
      caretIf caret ++ body.toList ++ dollarIf dollar := by
  cases caret <;> cases dollar <;> simp [withAnchors, caretIf, dollarIf]

section Anchored

variable (caret dollar : Bool) {tree : Alternation} {body : String} {waiting : Bool}
  (admissible : tree.Admissible) (passage : tree.passage false body.toList waiting)
  (start : caret = true ∨ body.toList.head? ≠ some '^')
  (stop : dollar = true ∨ endsInAnchor body.toList = false)
include admissible passage start stop

theorem parse_withAnchors : parse (withAnchors caret dollar body).toList =
    .ok (some (tree.surround caret dollar waiting).expr) := by
  rw [toList_withAnchors, parse_anchors (tree.endsInEscape_of_passage passage) start stop]
  exact parseWhole_eq_ok_iff.mpr (.tree _ (tree.admissible_surround caret dollar admissible)
    (tree.renders_surround caret dollar passage))

/-- **A pattern matches what its tree finds.**  A caret that waits at the end of the body
ties the end as a dollar sign does. -/
theorem isMatch_of_passage (subject : String) :
    ∃ matched, isMatch (withAnchors caret dollar body) subject = .ok matched ∧
      (matched = true ↔ tree.Finds (!caret) (!dollar && !waiting) subject.toList) := by
  have reads := parse_withAnchors caret dollar admissible passage start stop
  refine ⟨_, by rw [isMatch_eq_map, reads, Except.map], ?_⟩
  rw [Nfa.run_ofExpr_iff, Expr.languageOf, Alternation.language_expr,
    tree.mem_language_surround]

end Anchored

/-- Some part of the subject is matched by the pattern with both anchors. -/
def HasMatch (pattern subject : String) : Prop :=
  ∃ before middle after : String, subject = before ++ middle ++ after ∧
    isMatch ("^" ++ pattern ++ "$") middle = .ok true

/-- The pattern is searched for in the subject: it is matched exactly if it has a match there. -/
def Searches (pattern subject : String) : Prop :=
  ∃ matched, isMatch pattern subject = .ok matched ∧ (matched = true ↔ HasMatch pattern subject)

section Unanchored

variable {tree : Alternation} {pattern : String} {waiting : Bool}
  (admissible : tree.Admissible) (passage : tree.passage false pattern.toList waiting)
include admissible passage

theorem isMatch_anchored_iff (subject : String) :
    isMatch ("^" ++ pattern ++ "$") subject = .ok true ↔ subject.toList ∈ tree.language := by
  obtain ⟨matched, answers, finds⟩ := isMatch_of_passage true true admissible passage
    (.inl rfl) (.inl rfl) subject
  have answers : isMatch ("^" ++ pattern ++ "$") subject = .ok matched := answers
  rw [answers, Except.ok.injEq, finds]
  exact Alternation.finds_false_iff

theorem hasMatch_iff_occurs (subject : String) :
    HasMatch pattern subject ↔ tree.Occurs subject.toList := by
  have anchored := isMatch_anchored_iff admissible passage
  constructor
  · rintro ⟨before, middle, after, rfl, answers⟩
    exact ⟨before.toList, middle.toList, after.toList, by simp, (anchored middle).mp answers⟩
  · rintro ⟨before, middle, after, same, member⟩
    refine ⟨.ofList before, .ofList middle, .ofList after, ?_, ?_⟩
    · rw [← String.toList_inj]
      simpa using same
    · exact (anchored _).mpr (by simpa using member)

variable (noCaret : pattern.toList.head? ≠ some '^')
  (noDollar : endsInAnchor pattern.toList = false)
include noCaret noDollar

theorem isMatch_unanchored_of_passage (subject : String) :
    ∃ matched, isMatch pattern subject = .ok matched ∧
      (matched = true ↔ tree.Finds true (!waiting) subject.toList) := by
  obtain ⟨matched, answers, finds⟩ := isMatch_of_passage false false admissible passage
    (.inr noCaret) (.inr noDollar) subject
  have same : withAnchors false false pattern = pattern := by simp [withAnchors]
  rw [same] at answers
  exact ⟨matched, answers, by simpa using finds⟩

/-- The pattern is searched for in the subject unless it has a match there that the tree does
not find. -/
theorem searches_iff_of_passage (subject : String) : Searches pattern subject ↔
    (tree.Occurs subject.toList → tree.Finds true (!waiting) subject.toList) := by
  obtain ⟨matched, answers, finds⟩ :=
    isMatch_unanchored_of_passage admissible passage noCaret noDollar subject
  have occurs := hasMatch_iff_occurs admissible passage subject
  constructor
  · rintro ⟨_, answers', searches⟩ occurs'
    rw [answers, Except.ok.injEq] at answers'
    exact finds.mp (answers' ▸ searches.mpr (occurs.mpr occurs'))
  · intro complete
    refine ⟨matched, answers, finds.trans ?_⟩
    exact ⟨fun found => occurs.mpr found.occurs, fun has => complete (occurs.mp has)⟩

end Unanchored

/-- Everything has an empty part, which the empty pattern matches. -/
theorem searches_empty (subject : String) : Searches "" subject := by
  have reads : parse "".toList =
      .ok (some (.cat (Item.anything false).expr (Item.anything false).expr)) := by
    cbv
  have everything : subject.toList ∈
      (Item.anything false).language * (Item.anything false).language := by
    rw [Item.language_anything]
    exact ⟨subject.toList, trivial, [], trivial, List.append_nil _⟩
  have answers : isMatch "" subject = .ok true := by
    rw [isMatch_eq_map, reads, Except.map, Except.ok.injEq, Nfa.run_ofExpr_iff, Expr.languageOf,
      Expr.language, Item.language_expr]
    exact everything
  have anchored : isMatch ("^" ++ "" ++ "$") "" = .ok true := by
    rw [isMatch_eq_map]
    cbv
  exact ⟨true, answers, fun _ => ⟨subject, "", "", by simp, anchored⟩, fun _ => rfl⟩

/-- **What a pattern without anchors matches.**  A pattern whose last backslash would escape the
anchor is refused.  Of any other, the first branch is found wherever it starts, the last one
wherever it ends unless a caret waits there, and every other end of a branch is tied to the
end of the subject.  The pattern is searched for exactly in those subjects where this finds
all that occurs, hence in all subjects if there is one branch and no caret waits. -/
theorem isMatch_unanchored {pattern : String} {e : Option Expr}
    (noCaret : pattern.toList.head? ≠ some '^') (noDollar : endsInAnchor pattern.toList = false)
    (parses : parse ("^" ++ pattern ++ "$").toList = .ok e) (subject : String) :
    (endsInEscape pattern.toList = true ∧ isMatch pattern subject = .error .trailingEscape) ∨
      (pattern = "" ∧ Searches pattern subject) ∨
        ∃ (tree : Alternation) (waiting : Bool), tree.Admissible ∧
          tree.passage false pattern.toList waiting ∧
          (∃ matched, isMatch pattern subject = .ok matched ∧
            (matched = true ↔ tree.Finds true (!waiting) subject.toList)) ∧
          (Searches pattern subject ↔
            (tree.Occurs subject.toList → tree.Finds true (!waiting) subject.toList)) ∧
          (tree.branches.length = 1 → waiting = false → Searches pattern subject) := by
  by_cases escape : endsInEscape pattern.toList = true
  · refine .inl ⟨escape, ?_⟩
    rw [isMatch_eq_map, parse, if_pos escape]
    rfl
  have complete := Bool.eq_false_iff.mpr escape
  have text : ("^" ++ pattern ++ "$").toList = caretIf true ++ pattern.toList ++ dollarIf true :=
    toList_withAnchors true true pattern
  have reading : parse (caretIf true ++ pattern.toList ++ dollarIf true) =
      parseWhole ([] ++ pattern.toList ++ []) := parse_anchors complete (.inl rfl) (.inl rfl)
  rw [text, reading, List.nil_append, List.append_nil] at parses
  cases parseWhole_eq_ok_iff.mp parses with
  | nothing all =>
      have empty : pattern = "" := by
        cases chars : pattern.toList with
        | nil => exact String.toList_inj.mp chars
        | cons c rest =>
            rw [chars] at all noCaret
            exact absurd (congrArg some (all c List.mem_cons_self)) noCaret
      exact .inr (.inl ⟨empty, empty ▸ searches_empty subject⟩)
  | tree tree admissible renders =>
      obtain ⟨waiting, passage⟩ := renders
      have searches := searches_iff_of_passage admissible passage noCaret noDollar subject
      refine .inr (.inr ⟨tree, waiting, admissible, passage,
        isMatch_unanchored_of_passage admissible passage noCaret noDollar subject, searches, ?_⟩)
      rintro single rfl
      exact searches.mpr fun occurs => occurs.finds single

theorem isMatch_unanchored_two_branches : ∃ (tree : Alternation) (waiting : Bool),
    tree.passage false "a|b".toList waiting ∧ (Searches "a|b" "xb" ↔
      (tree.Occurs "xb".toList → tree.Finds true (!waiting) "xb".toList)) := by
  have parses : parse ("^" ++ "a|b" ++ "$").toList =
      .ok (some (.alt (.atom (.char 'a' false)) (.atom (.char 'b' false)))) := by
    cbv
  rcases isMatch_unanchored (by decide) (by decide) parses "xb" with
    ⟨escape, _⟩ | ⟨empty, _⟩ | ⟨tree, waiting, _, passage, _, searches, _⟩
  · exact absurd escape (by decide)
  · exact absurd empty (by decide)
  · exact ⟨tree, waiting, passage, searches⟩

/-- The second branch is not found behind a character. -/
example : isMatch "a|b" "xb" = .ok false ∧ isMatch "^a|b$" "b" = .ok true := by
  rw [isMatch_eq_map, isMatch_eq_map]
  cbv

/-- A caret at the end ties the end. -/
example : isMatch "a^" "ab" = .ok false ∧ isMatch "^a^$" "a" = .ok true := by
  rw [isMatch_eq_map, isMatch_eq_map]
  cbv

end RegexAutomaton
