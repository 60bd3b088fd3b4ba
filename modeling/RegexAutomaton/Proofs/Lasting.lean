import RegexAutomaton.Proofs.Operands

/-!
# Faults that last

A pattern that is refused may become readable when more is written behind it: a group or brackets
that are still open can be closed, a bar can be given its operand, and a backslash can be given a
character to escape.  All other faults last (`Malformed.Lasting`).

**While reading.** A lasting fault is met at a lexeme that the text holds whole, or at a character
that no continuation can make a lexeme of.  So the reading stops there whatever is written behind
(`Stops.append_of_lasting`).  Conversely, a lasting fault that is met with `.*` behind a text lies
in the text itself (`Stops.of_append`), since `.*` closes nothing and can be read everywhere.

**Anchors.** A dollar sign at the end of a pattern is no anchor any more when something is written
behind it, and the `.*` that stood in for a missing anchor moves.  What a pattern has in common with
all its continuations is the text between its anchors (`exists_core`), and the fault lies in there.

**Result.** The faults that no continuation repairs are exactly the lasting ones (`lasting_iff`).
-/

set_option autoImplicit false

namespace RegexAutomaton.Pattern

/-- The faults that are there to stay, whatever is written behind. -/
inductive Malformed.Lasting : Malformed → Prop where
  | nothingToRepeat (operator : Char) : Lasting (.nothingToRepeat operator)
  | repeatedOperator (operator : Char) : Lasting (.repeatedOperator operator)
  | escapeInBrackets : Lasting .escapeInBrackets
  | emptyGroup : Lasting .emptyGroup
  | unopenedGroup : Lasting .unopenedGroup

variable {text : List Char} {e : Malformed}

/-! ## While reading -/

/-- A level that is read to its end lacks an operand if it is refused. -/
theorem Level.eq_of_finish_eq_error {level : Level} (fails : level.finish = .error e) :
    e = .emptyAlternative := by
  unfold finish at fails
  split at fails <;> cases fails
  rfl

/-- A backslash is found inside brackets if it comes before the closing one. -/
theorem takeBrackets_eq_escapeInBrackets_iff :
    takeBrackets text = .error .escapeInBrackets ↔
      ∃ front back, text = front ++ '\\' :: back ∧ ']' ∉ front := by
  constructor
  · intro fails
    induction text with
    | nil => cases fails
    | cons c text ih =>
        unfold takeBrackets at fails
        split at fails
        · cases fails
        · rename_i notClosing
          split at fails
          · rename_i escape
            exact ⟨[], text, by rw [escape, List.nil_append], List.not_mem_nil⟩
          · cases taken : takeBrackets text with
            | ok found =>
                rw [taken] at fails
                cases fails
            | error e =>
                rw [taken] at fails
                cases fails
                obtain ⟨front, back, rfl, unclosed⟩ := ih taken
                exact ⟨c :: front, back, rfl,
                  List.not_mem_cons_of_ne_of_not_mem (Ne.symm notClosing) unclosed⟩
  · rintro ⟨front, back, rfl, unclosed⟩
    induction front with
    | nil => rfl
    | cons c front ih =>
        rw [List.mem_cons, not_or] at unclosed
        rw [List.cons_append, takeBrackets, if_neg (Ne.symm unclosed.1), ih unclosed.2]
        split <;> rfl

theorem Lexeme.read_of_takeBrackets_error (fails : takeBrackets text = .error e) :
    Lexeme.read '[' text = .error e := by
  rw [Lexeme.read, fails]
  rfl

/-- **Where a reading stops for a lasting fault, it does so whatever is written behind.** -/
theorem Stops.append_of_lasting {level : Level} (stops : Stops level text e) (lasting : e.Lasting)
    (more : List Char) : Stops level (text ++ more) e := by
  cases stops with
  | @read c text e fails =>
      cases unlexed_of_read fails with
      | escape => cases lasting
      | group => cases lasting
      | closing => exact .read rfl
      | brackets fails =>
          rcases takeBrackets_error fails with rfl | rfl
          · cases lasting
          · obtain ⟨front, back, rfl, unclosed⟩ := takeBrackets_eq_escapeInBrackets_iff.mp fails
            refine .read (Lexeme.read_of_takeBrackets_error ?_)
            exact takeBrackets_eq_escapeInBrackets_iff.mpr
              ⟨front, back ++ more, List.append_assoc _ _ _, unclosed⟩
  | take reads refuses => exact .take (Lexeme.read_append_of_read reads more) refuses

/-- **A lasting fault that is met with more behind a text is met in the text itself**, if what is
behind closes nothing and has no backslash. -/
theorem Stops.of_append {level : Level} {c : Char} {more : List Char}
    (unclosing : ']' ∉ more ∧ ')' ∉ more) (plain : '\\' ∉ more)
    (complete : endsInEscape (c :: text) = false) (lasting : e.Lasting)
    (stops : Stops level (c :: text ++ more) e) : Stops level (c :: text) e := by
  cases stops with
  | read fails =>
      change Lexeme.read c (text ++ more) = .error e at fails
      generalize whole : text ++ more = behind at fails
      cases unlexed_of_read fails with
      | escape => cases lasting
      | group => cases lasting
      | closing => exact .read rfl
      | brackets fails =>
          rcases takeBrackets_error fails with rfl | rfl
          · cases lasting
          · refine .read (Lexeme.read_of_takeBrackets_error ?_)
            rw [takeBrackets_eq_escapeInBrackets_iff] at fails ⊢
            obtain ⟨front, back, rfl, unclosed⟩ := fails
            rcases List.append_eq_append_iff.mp whole with
              ⟨beyond, _, inside⟩ | ⟨left, rfl, inside⟩
            · exact absurd (by simp [inside]) plain
            · cases left with
              | nil =>
                  rw [List.nil_append] at inside
                  exact absurd (inside ▸ List.mem_cons_self) plain
              | cons d left =>
                  obtain ⟨rfl, _⟩ := List.cons.inj inside
                  exact ⟨front, left, rfl, unclosed⟩
  | take reads refuses =>
      obtain ⟨left, _, reads⟩ := Lexeme.read_of_read_append unclosing complete reads
      exact .take reads refuses

/-- **A text that is refused for a lasting fault is refused for it whatever is written behind.** -/
theorem parseWhole_append_of_lasting (lasting : e.Lasting) (refused : parseWhole text = .error e)
    (more : List Char) : parseWhole (text ++ more) = .error e := by
  obtain ⟨front, rest, last, rfl, reads, ends⟩ := exists_reads .start text
  rw [parseWhole, reads.parseLevel_append] at refused
  rcases ends with rfl | ⟨e', stops⟩
  · rw [parseLevel_nil] at refused
    obtain rfl := Level.eq_of_finish_eq_error refused
    cases lasting
  · rw [stops.parseLevel_eq] at refused
    cases refused
    rw [List.append_assoc, parseWhole, reads.parseLevel_append,
      (stops.append_of_lasting lasting more).parseLevel_eq]

/-- **A lasting fault that is met with `.*` behind a text is met in the text itself.** -/
theorem parseWhole_of_append_anything (complete : endsInEscape text = false) (lasting : e.Lasting)
    (refused : parseWhole (text ++ anything) = .error e) : parseWhole text = .error e := by
  obtain ⟨front, rest, last, rfl, reads, ends⟩ := exists_reads .start text
  rw [List.append_assoc, parseWhole, reads.parseLevel_append] at refused
  rw [endsInEscape_append reads.endsInEscape_eq_false] at complete
  rw [parseWhole, reads.parseLevel_append]
  cases rest with
  | nil =>
      obtain ⟨result, parses⟩ := parseLevel_anything last
      rw [List.nil_append, parses] at refused
      cases refused
  | cons c rest =>
      obtain ⟨_, stops⟩ := ends.resolve_left (List.cons_ne_nil c rest)
      have unclosing : ']' ∉ anything ∧ ')' ∉ anything := by decide
      obtain ⟨_, stops⟩ := stops.append unclosing complete
      rw [stops.parseLevel_eq] at refused
      cases refused
      exact (stops.of_append unclosing (by decide) complete lasting).parseLevel_eq

/-! ## Anchors -/

theorem anchorStart_append (nonempty : text ≠ []) (more : List Char) :
    anchorStart (text ++ more) = anchorStart text ++ more := by
  obtain ⟨c, rest, rfl⟩ := List.exists_cons_of_ne_nil nonempty
  by_cases caret : c = '^'
  · subst caret
    rfl
  · simp [anchorStart, caret]

/-- Neither leaving out the caret in front nor `.*` in its place changes what the text ends in. -/
theorem endsInEscape_anchorStart (text : List Char) :
    endsInEscape (anchorStart text) = endsInEscape text := by
  unfold anchorStart
  split
  · have caret : endsInEscape ['^'] = false := rfl
    exact (endsInEscape_append caret _).symm
  · have plain : endsInEscape anything = false := rfl
    exact endsInEscape_append plain text

theorem exists_of_endsInAnchor (anchor : endsInAnchor text = true) :
    ∃ front, text = front ++ ['$'] ∧ endsInEscape front = false := by
  rw [endsInAnchor, Bool.and_eq_true, beq_iff_eq, Bool.not_eq_true'] at anchor
  obtain ⟨front, rfl⟩ := List.getLast?_eq_some_iff.mp anchor.1
  rw [List.dropLast_concat] at anchor
  exact ⟨front, rfl, anchor.2⟩

/-- Making the end explicit takes away the last character at most. -/
theorem exists_anchorEnd_append (front : List Char) {back : List Char} (nonempty : back ≠ []) :
    ∃ back', anchorEnd (front ++ back) = front ++ back' := by
  unfold anchorEnd
  split
  · exact ⟨back.dropLast, List.dropLast_append_of_ne_nil nonempty⟩
  · exact ⟨back ++ anything, List.append_assoc _ _ _⟩

/-- **What a pattern has in common with its continuations**: the text between its anchors, with
nothing or `.*` behind it in the pattern itself. -/
theorem exists_core (nonempty : text ≠ []) (complete : endsInEscape text = false) :
    ∃ core, endsInEscape core = false ∧ (anchored text = core ∨ anchored text = core ++ anything) ∧
      ∀ more, ∃ back, anchored (text ++ more) = core ++ back := by
  have behind : ∀ more, anchored (text ++ more) = anchorEnd (anchorStart text ++ more) :=
    fun more => congrArg anchorEnd (anchorStart_append nonempty more)
  by_cases anchor : endsInAnchor (anchorStart text) = true
  · obtain ⟨core, whole, coreComplete⟩ := exists_of_endsInAnchor anchor
    refine ⟨core, coreComplete, .inl ?_, fun more => ?_⟩
    · rw [anchored, anchorEnd, if_pos anchor, whole, List.dropLast_concat]
    · rw [behind, whole, List.append_assoc]
      exact exists_anchorEnd_append core (List.cons_ne_nil _ _)
  · refine ⟨anchorStart text, ?_, .inr ?_, fun more => ?_⟩
    · rw [endsInEscape_anchorStart, complete]
    · rw [anchored, anchorEnd, if_neg anchor]
    · rw [behind]
      cases more with
      | nil =>
          rw [List.append_nil, anchorEnd, if_neg anchor]
          exact ⟨anything, rfl⟩
      | cons c more => exact exists_anchorEnd_append _ (List.cons_ne_nil c more)

/-! ## Every continuation -/

/-- **A pattern that is refused for a lasting fault is refused for it whatever is written behind**,
unless what is written ends in a backslash that escapes nothing. -/
theorem parse_append_of_lasting (lasting : e.Lasting) (refused : parse text = .error e)
    {more : List Char} (stillComplete : endsInEscape (text ++ more) = false) :
    parse (text ++ more) = .error e := by
  have nonempty : text ≠ [] := by
    rintro rfl
    obtain ⟨result, parses⟩ : ∃ result, parse [] = .ok result := ⟨_, by cbv⟩
    rw [parses] at refused
    cases refused
  by_cases incomplete : endsInEscape text = true
  · rw [parse, if_pos incomplete] at refused
    cases refused
    cases lasting
  · have complete : endsInEscape text = false := by simpa using incomplete
    obtain ⟨core, coreComplete, here, behind⟩ := exists_core nonempty complete
    obtain ⟨back, behind⟩ := behind more
    rw [parse, if_neg incomplete] at refused
    have coreRefused : parseWhole core = .error e := by
      rcases here with same | same
      · rwa [same] at refused
      · rw [same] at refused
        exact parseWhole_of_append_anything coreComplete lasting refused
    rw [parse, stillComplete, if_neg Bool.false_ne_true, behind]
    exact parseWhole_append_of_lasting lasting coreRefused back

/-- **Every other fault can be repaired** by what is written behind. -/
theorem exists_repair_of_not_lasting (passing : ¬e.Lasting) :
    ∃ text more, parse text = .error e ∧ endsInEscape (text ++ more) = false ∧
      ∃ result, parse (text ++ more) = .ok result := by
  cases e with
  | nothingToRepeat operator => exact absurd (.nothingToRepeat operator) passing
  | repeatedOperator operator => exact absurd (.repeatedOperator operator) passing
  | escapeInBrackets => exact absurd .escapeInBrackets passing
  | emptyGroup => exact absurd .emptyGroup passing
  | unopenedGroup => exact absurd .unopenedGroup passing
  | emptyAlternative => exact ⟨['^', 'a', '|', '$'], ['b'], by cbv, by decide, _, by cbv⟩
  | unclosedGroup => exact ⟨['(', 'a'], [')'], by cbv, by decide, _, by cbv⟩
  | unclosedBrackets =>
      -- The class that the contents stand for need not be worked out.
      have reads : Reads .start (anchored ['[', 'a', ']']) _ :=
        .take rfl rfl (.take rfl rfl (.take rfl rfl (.take rfl rfl (.take rfl rfl (.stop _)))))
      exact ⟨['[', 'a'], [']'], by cbv, by decide, reads.exists_parseWhole rfl⟩
  | trailingEscape => exact ⟨['\\'], ['\\'], by cbv, by decide, _, by cbv⟩

/-- **The faults that no continuation repairs are the lasting ones**: an operator with nothing to
repeat or behind another one, with the operator that is reported, a backslash in brackets, an empty
group, and a group that is closed before it was opened. -/
theorem lasting_iff {e : Malformed} : e.Lasting ↔
    ∀ text more : List Char, parse text = .error e → endsInEscape (text ++ more) = false →
      parse (text ++ more) = .error e := by
  constructor
  · intro lasting text more refused complete
    exact parse_append_of_lasting lasting refused complete
  · intro lasts
    by_contra passing
    obtain ⟨text, more, refused, complete, result, parses⟩ := exists_repair_of_not_lasting passing
    rw [lasts text more refused complete] at parses
    cases parses

/-- The operator that has nothing to repeat stands in a group within a group.  The dollar sign
behind them is no anchor in the longer pattern, and the brackets there stay open. -/
theorem lasting_iff_operator_in_groups :
    parse ['x', '(', 'a', '|', '(', '+', ')', ')', '$'] = .error (.nothingToRepeat '+') ∧
    parse (['x', '(', 'a', '|', '(', '+', ')', ')', '$'] ++ ['y', '|', '[', 'z']) =
      .error (.nothingToRepeat '+') := by
  have refused : parse ['x', '(', 'a', '|', '(', '+', ')', ')', '$'] =
      .error (.nothingToRepeat '+') := by
    cbv
  exact ⟨refused, lasting_iff.mp (.nothingToRepeat '+') _ _ refused (by decide)⟩

end RegexAutomaton.Pattern
