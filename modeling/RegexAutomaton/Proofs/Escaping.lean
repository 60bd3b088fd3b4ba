import Mathlib.Data.List.TakeWhile
import RegexAutomaton.Proofs.Operands
import RegexAutomaton.Proofs.Scanning

/-!
# Backslashes are counted as they are read

Two places decide what a backslash escapes.  Before a pattern is read, the backslashes at its end
are counted from the back, to refuse one that escapes nothing and to tell whether a dollar sign
is an anchor.  While it is read, each backslash takes the next character.

**While reading.** A text is refused for a backslash that escapes nothing only if it ends in
one.  The text of a group never does, whatever brackets and escapes it holds, so the fault cannot
come from inside (`endsInEscape_of_parseWhole`).  With its anchors made explicit a pattern does
not end in one either (`endsInEscape_anchored`).  So the fault is always found by counting
(`parse_eq_trailingEscape_iff`).

**Result.** The count says whether a dollar sign behind a text would be read as an escaped
character, and where the text can be read, `^` in front and `$` behind are anchors that change
nothing else (`escapes_agree`).
-/

set_option autoImplicit false

namespace RegexAutomaton.Pattern

/-! ## Runs of backslashes -/

/-- The text ends in a run of exactly `n` backslashes. -/
def EndsInBackslashes (n : Nat) (text : List Char) : Prop :=
  ∃ front, text = front ++ List.replicate n '\\' ∧ front.getLast? ≠ some '\\'

theorem endsInBackslashes_trailing (text : List Char) :
    EndsInBackslashes (trailingBackslashes text) text := by
  have run : ∀ c ∈ text.reverse.takeWhile (· == '\\'), c = '\\' := by
    intro c member
    have matching := List.mem_takeWhile_imp member
    exact beq_iff_eq.mp matching
  refine ⟨(text.reverse.dropWhile (· == '\\')).reverse, ?_, ?_⟩
  · have split := congrArg List.reverse
      (List.takeWhile_append_dropWhile (p := (· == '\\')) (l := text.reverse))
    rw [List.reverse_append, List.reverse_reverse, List.eq_replicate_of_mem run,
      List.reverse_replicate] at split
    exact split.symm
  · rw [List.getLast?_reverse]
    intro head
    have other := List.head?_dropWhile_not (· == '\\') text.reverse
    rw [head] at other
    simp at other

theorem trailingBackslashes_of_endsIn {n : Nat} {text : List Char}
    (ends : EndsInBackslashes n text) : trailingBackslashes text = n := by
  obtain ⟨front, rfl, other⟩ := ends
  have stops : front.reverse.takeWhile (· == '\\') = [] := by
    rw [← List.head?_reverse] at other
    cases reversed : front.reverse with
    | nil => rfl
    | cons c rest =>
        rw [reversed] at other
        have notBackslash : c ≠ '\\' := fun same => other (congrArg some same)
        simp [notBackslash]
  rw [trailingBackslashes, List.reverse_append, List.reverse_replicate,
    List.takeWhile_append_of_pos (by simp), stops, List.append_nil, List.length_replicate]

theorem endsInEscape_iff {text : List Char} :
    endsInEscape text = true ↔ ∃ n, n % 2 = 1 ∧ EndsInBackslashes n text := by
  rw [endsInEscape, beq_iff_eq]
  constructor
  · intro odd
    exact ⟨_, odd, endsInBackslashes_trailing text⟩
  · rintro ⟨n, odd, ends⟩
    rw [trailingBackslashes_of_endsIn ends, odd]

/-! ## While reading -/

/-- What stops a reading for a backslash that escapes nothing: the backslash itself, or a group
with this fault. -/
theorem Stops.trailing_escape {level : Level} {text : List Char}
    (stops : Stops level text .trailingEscape) :
    text = ['\\'] ∨ ∃ inner back, text = '(' :: (inner ++ ')' :: back) ∧
      takeGroup 0 false (inner ++ ')' :: back) = some (inner, back) ∧
      parseWhole inner = .error .trailingEscape := by
  cases stops with
  | read fails =>
      cases unlexed_of_read fails with
      | escape => exact .inl rfl
      | brackets fails =>
          rcases takeBrackets_error fails with unclosed | escape
          · cases unclosed
          · cases escape
  | @take c text rest lexeme _ reads fails =>
      cases Level.refuses_of_take fails with
      | @inside inner _ refused =>
          obtain ⟨rfl, rfl, taken⟩ := Lexeme.read_group_eq reads
          exact .inr ⟨inner, rest, rfl, taken, refused⟩

/-- **A text is refused for a backslash that escapes nothing only if it ends in one.** -/
theorem endsInEscape_of_parseWhole (text : List Char)
    (refused : parseWhole text = .error .trailingEscape) : endsInEscape text = true := by
  obtain ⟨front, rest, last, whole, reads, ends⟩ := exists_reads .start text
  subst whole
  rw [parseWhole, reads.parseLevel_append] at refused
  rw [endsInEscape_append reads.endsInEscape_eq_false]
  rcases ends with rfl | ⟨e, stops⟩
  · rw [parseLevel_nil, Level.finish] at refused
    split at refused <;> cases refused
  · rw [stops.parseLevel_eq] at refused
    cases refused
    rcases stops.trailing_escape with rfl | ⟨inner, back, rfl, taken, refused⟩
    · rfl
    · have complete := (endsInEscape_of_scan inner).1 (scan_of_takeGroup taken)
      rw [endsInEscape_of_parseWhole inner refused] at complete
      cases complete
termination_by text.length
decreasing_by
  subst_vars
  simp only [List.length_append, List.length_cons]
  omega

/-! ## Before reading -/

/-- With its anchors made explicit no pattern ends in a backslash that escapes nothing. -/
theorem endsInEscape_anchored (text : List Char) : endsInEscape (anchored text) = false := by
  rw [anchored, anchorEnd]
  split
  · rename_i anchor
    rw [endsInAnchor, Bool.and_eq_true, Bool.not_eq_true'] at anchor
    exact anchor.2
  · have star : '*' ≠ '\\' := by decide
    have ends : anchorStart text ++ anything = anchorStart text ++ ['.'] ++ ['*'] := by
      simp [anything]
    rw [ends]
    exact endsInEscape_concat star _

/-- **The fault is found by counting**, and never by reading. -/
theorem parse_eq_trailingEscape_iff {text : List Char} :
    parse text = .error .trailingEscape ↔ endsInEscape text = true := by
  rw [parse]
  split
  · rename_i ends
    exact iff_of_true rfl ends
  · rename_i complete
    refine iff_of_false (fun refused => ?_) complete
    have ends := endsInEscape_of_parseWhole _ refused
    rw [endsInEscape_anchored] at ends
    cases ends

theorem anchored_withBothAnchors {text : List Char} (complete : endsInEscape text = false) :
    anchored (withBothAnchors text) = text := by
  have explicit : anchorEnd (text ++ dollarIf true) = text ++ anythingUnless true :=
    anchorEnd_dollarIf complete (.inl rfl)
  rw [dollarIf, if_pos rfl, anythingUnless, if_pos rfl, List.append_nil] at explicit
  exact explicit

/-- **The count from the end and the reading from the start agree.**

A pattern is refused for a backslash that escapes nothing exactly if it ends in an odd run of
backslashes, and reading never comes across such a backslash.  A dollar sign behind a text that
is not inside brackets is an anchor exactly if it would not be read as an escaped character.  A
text that can be read ends in an even run, and with both anchors it is the same text and is read
in the same way. -/
theorem escapes_agree (text : List Char) :
    (parse text = .error .trailingEscape ↔ ∃ n, n % 2 = 1 ∧ EndsInBackslashes n text) ∧
    parseWhole (anchored text) ≠ .error .trailingEscape ∧
    (scan .plain text ≠ .bracketed →
      (endsInAnchor (text ++ ['$']) = true ↔ scan .plain text ≠ .escaped)) ∧
    ∀ tokens, (parseWhole text).map Expr.postorderOf = .ok tokens →
      (∃ n, n % 2 = 0 ∧ EndsInBackslashes n text) ∧
      anchored (withBothAnchors text) = text ∧
      (parse (withBothAnchors text)).map Expr.postorderOf = .ok tokens := by
  refine ⟨parse_eq_trailingEscape_iff.trans endsInEscape_iff, ?_, ?_, ?_⟩
  · intro refused
    have ends := endsInEscape_of_parseWhole _ refused
    rw [endsInEscape_anchored] at ends
    cases ends
  · intro outside
    rw [endsInAnchor_concat]
    cases stands : scan .plain text with
    | plain =>
        rw [(endsInEscape_of_scan text).1 stands]
        exact iff_of_true rfl (by decide)
    | escaped =>
        rw [(endsInEscape_of_scan text).2 stands]
        exact iff_of_false (by decide) fun other => other rfl
    | bracketed => exact absurd stands outside
  · intro tokens parses
    have complete : endsInEscape text = false := by
      cases read : parseWhole text with
      | error e =>
          rw [read] at parses
          cases parses
      | ok result =>
          obtain ⟨last, reads, _⟩ := (parseLevel_eq_ok_iff .start text).mp read
          exact reads.endsInEscape_eq_false
    refine ⟨⟨_, ?_, endsInBackslashes_trailing text⟩, anchored_withBothAnchors complete, ?_⟩
    · rw [endsInEscape, beq_eq_false_iff_ne] at complete
      omega
    · rwa [parse_withBothAnchors complete]

/-- Two backslashes inside a group and two behind it: each escapes the other, and the dollar sign
that is put behind them is an anchor. -/
theorem escapes_agree_escaped_backslashes :
    (endsInAnchor (['(', '\\', '\\', ')', '\\', '\\'] ++ ['$']) = true ↔
      scan .plain ['(', '\\', '\\', ')', '\\', '\\'] ≠ .escaped) ∧
    (∃ n, n % 2 = 0 ∧ EndsInBackslashes n ['(', '\\', '\\', ')', '\\', '\\']) ∧
    anchored (withBothAnchors ['(', '\\', '\\', ')', '\\', '\\']) =
      ['(', '\\', '\\', ')', '\\', '\\'] ∧
    (parse (withBothAnchors ['(', '\\', '\\', ')', '\\', '\\'])).map Expr.postorderOf =
      .ok [.atom (.char '\\' false), .atom (.char '\\' false), .cat] := by
  obtain ⟨_, _, agree, readable⟩ := escapes_agree ['(', '\\', '\\', ')', '\\', '\\']
  exact ⟨agree (by decide), readable _ (by cbv)⟩

end RegexAutomaton.Pattern
