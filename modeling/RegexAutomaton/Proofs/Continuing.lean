import RegexAutomaton.Proofs.Anchoring
import RegexAutomaton.Proofs.Recovery

/-!
# Reading goes on

A lexeme is told by its own text: what follows it does not matter
(`Lexeme.read_of_rest`).  So reading a text step by step leads to a level
(`Reads`), and from there reading goes on with whatever follows the text
(`Reads.parseLevel_append`).  Every text is read in this way up to its end, or up to a
lexeme that stops the reading (`exists_reads`).  A text can be read whole exactly when its
steps lead to a level that is complete (`parseLevel_eq_ok_iff`).  What stops a reading is
that there is no lexeme (`Unlexed`) or that the level does not take it (`Level.Refuses`).

A text that can be read when something is put behind it need not lead to a level: an escape,
a group or brackets at its end may reach into what is behind.  If the text does not end in
an escape, and there is no closing parenthesis or bracket behind it, they do not
(`exists_reads_of_append`).

The open branch of a level is empty at the start and after a bar.  So a text that leads to
an empty branch consists of carets, or ends in a bar and carets (`Reads.bar_at_end`).
-/

set_option autoImplicit false

namespace RegexAutomaton.Pattern

open Grammar (Lexed lexed_of_read lexical_endsInEscape plain_of_takeBrackets)

/-! ## A lexeme is told by its own text -/

theorem takeBrackets_of_rest {text contents rest : List Char}
    (taken : takeBrackets text = .ok (contents, rest)) (other : List Char) :
    takeBrackets (contents ++ ']' :: other) = .ok (contents, other) :=
  takeBrackets_append ⟨contents, plain_of_takeBrackets taken⟩ other

theorem exists_tail_of_map {found : Option (List Char × List Char)} (front : List Char)
    {inner rest : List Char}
    (taken : (found.map fun (inner, after) => (front ++ inner, after)) = some (inner, rest)) :
    ∃ tail, found = some (tail, rest) ∧ inner = front ++ tail := by
  obtain ⟨⟨tail, _⟩, found, same⟩ := Option.map_eq_some_iff.mp taken
  cases same
  exact ⟨tail, found, rfl⟩

theorem takeGroup_of_rest {depth : Nat} {bracketed : Bool} {text inner rest : List Char}
    (taken : takeGroup depth bracketed text = some (inner, rest)) (other : List Char) :
    takeGroup depth bracketed (inner ++ ')' :: other) = some (inner, other) := by
  fun_induction takeGroup depth bracketed text generalizing inner with
  | case1 => cases taken
  | case2 depth c text ih =>
      obtain ⟨tail, found, rfl⟩ := exists_tail_of_map [c] taken
      rw [List.append_assoc, List.singleton_append, takeGroup_bracketed_cons, ih found]
      rfl
  | case3 => cases taken
  | case4 depth bracketed unbracketed c text ih =>
      obtain rfl := Bool.eq_false_iff.mpr unbracketed
      obtain ⟨tail, found, rfl⟩ := exists_tail_of_map ['\\', c] taken
      show takeGroup depth false ('\\' :: c :: (tail ++ ')' :: other)) = _
      rw [takeGroup_escape, ih found]
      rfl
  | case5 depth bracketed text unbracketed _ ih =>
      obtain rfl := Bool.eq_false_iff.mpr unbracketed
      obtain ⟨tail, found, rfl⟩ := exists_tail_of_map ['['] taken
      rw [List.append_assoc, List.singleton_append, takeGroup_opening_bracket, ih found]
      rfl
  | case6 depth bracketed text unbracketed _ _ ih =>
      obtain rfl := Bool.eq_false_iff.mpr unbracketed
      obtain ⟨tail, found, rfl⟩ := exists_tail_of_map ['('] taken
      rw [List.append_assoc, List.singleton_append, takeGroup_opening, ih found]
      rfl
  | case7 bracketed text unbracketed =>
      obtain rfl := Bool.eq_false_iff.mpr unbracketed
      cases taken
      exact takeGroup_closing_zero other
  | case8 bracketed text unbracketed depth _ _ _ ih =>
      obtain rfl := Bool.eq_false_iff.mpr unbracketed
      obtain ⟨tail, found, rfl⟩ := exists_tail_of_map [')'] taken
      rw [List.append_assoc, List.singleton_append, takeGroup_closing_succ, ih found]
      rfl
  | case9 depth bracketed c text unbracketed notEscape notBracket notOpening notClosing ih =>
      obtain rfl := Bool.eq_false_iff.mpr unbracketed
      obtain ⟨tail, found, rfl⟩ := exists_tail_of_map [c] taken
      have ordinary : c ∉ ['\\', '[', '(', ')'] := by
        simp [notEscape, notBracket, notOpening, notClosing]
      rw [List.append_assoc, List.singleton_append, takeGroup_ordinary depth _ ordinary, ih found]
      rfl

/-- What a lexeme has after its first character: nothing, the character that a backslash
escapes, or all up to a closing bracket or parenthesis. -/
inductive Lexeme.Tail (c : Char) : List Char → Prop where
  | single : Tail c []
  | escaped (escape : c = '\\') (d : Char) : Tail c [d]
  | closed (inner : List Char) {closing : Char} (closes : closing = ']' ∨ closing = ')') :
      Tail c (inner ++ [closing])

/-- **What follows a lexeme does not matter.** -/
theorem Lexeme.read_of_rest {c : Char} {text rest : List Char} {lexeme : Lexeme}
    (reads : Lexeme.read c text = .ok (lexeme, rest)) :
    ∃ tail, Tail c tail ∧ text = tail ++ rest ∧
      ∀ other, Lexeme.read c (tail ++ other) = .ok (lexeme, other) := by
  unfold Lexeme.read at reads
  split at reads
  · split at reads
    · cases reads
    · rename_i escaped after
      cases reads
      exact ⟨[escaped], .escaped rfl escaped, rfl, fun other => rfl⟩
  · cases taken : takeBrackets text with
    | error e =>
        rw [taken] at reads
        cases reads
    | ok found =>
        obtain ⟨contents, after⟩ := found
        rw [taken] at reads
        cases reads
        refine ⟨contents ++ [']'], .closed contents (.inl rfl), ?_, ?_⟩
        · simpa using takeBrackets_eq_append taken
        · intro other
          rw [List.append_assoc, List.singleton_append, Lexeme.read,
            takeBrackets_of_rest taken]
          rfl
  · split at reads
    · cases reads
    · rename_i inner after taken
      cases reads
      refine ⟨inner ++ [')'], .closed inner (.inr rfl), ?_, ?_⟩
      · simpa using takeGroup_eq_append taken
      · intro other
        rw [List.append_assoc, List.singleton_append, Lexeme.read, takeGroup_of_rest taken]
  · cases reads
  · cases reads
    exact ⟨[], .single, rfl, fun other => rfl⟩
  · cases reads
    exact ⟨[], .single, rfl, fun other => rfl⟩
  · cases reads
    exact ⟨[], .single, rfl, fun other => rfl⟩
  · split at reads
    · rename_i q isOperator
      cases reads
      obtain rfl := Quantifier.ofChar?_eq_some_iff.mp isOperator
      exact ⟨[], .single, rfl, Lexeme.read_quantifier q⟩
    · cases reads
      refine ⟨[], .single, rfl, fun other => ?_⟩
      unfold Lexeme.read
      split <;> simp_all

/-- What is read first is read first with more behind, too. -/
theorem Lexeme.read_append_of_read {c : Char} {text rest : List Char} {lexeme : Lexeme}
    (reads : Lexeme.read c text = .ok (lexeme, rest)) (more : List Char) :
    Lexeme.read c (text ++ more) = .ok (lexeme, rest ++ more) := by
  obtain ⟨tail, _, rfl, same⟩ := Lexeme.read_of_rest reads
  rw [List.append_assoc]
  exact same (rest ++ more)

theorem Lexeme.read_group_eq {c : Char} {text inner rest : List Char}
    (reads : Lexeme.read c text = .ok (.group inner, rest)) :
    c = '(' ∧ text = inner ++ ')' :: rest ∧ takeGroup 0 false text = some (inner, rest) := by
  unfold Lexeme.read at reads
  split at reads
  · split at reads <;> cases reads
  · cases taken : takeBrackets text with
    | error e =>
        rw [taken] at reads
        cases reads
    | ok found =>
        rw [taken] at reads
        cases reads
  · split at reads
    · cases reads
    · rename_i taken
      cases reads
      exact ⟨rfl, takeGroup_eq_append taken, taken⟩
  · cases reads
  · cases reads
  · cases reads
  · cases reads
  · split at reads <;> cases reads

theorem takeBrackets_error {text : List Char} {e : Malformed}
    (fails : takeBrackets text = .error e) : e = .unclosedBrackets ∨ e = .escapeInBrackets := by
  fun_induction takeBrackets text with
  | case1 =>
      cases fails
      exact .inl rfl
  | case2 => cases fails
  | case3 =>
      cases fails
      exact .inr rfl
  | case4 c rest _ _ ih =>
      cases taken : takeBrackets rest with
      | error e' =>
          rw [taken] at fails
          cases fails
          exact ih taken
      | ok found =>
          rw [taken] at fails
          cases fails

/-- The text starts with no lexeme, for the given reason. -/
inductive Unlexed : List Char → Malformed → Prop where
  | escape : Unlexed ['\\'] .trailingEscape
  | brackets {text : List Char} {e : Malformed} (fails : takeBrackets text = .error e) :
      Unlexed ('[' :: text) e
  | group {text : List Char} (unclosed : takeGroup 0 false text = none) :
      Unlexed ('(' :: text) .unclosedGroup
  | closing (text : List Char) : Unlexed (')' :: text) .unopenedGroup

/-- **A reading of a lexeme fails for one of four reasons.** -/
theorem unlexed_of_read {c : Char} {text : List Char} {e : Malformed}
    (fails : Lexeme.read c text = .error e) : Unlexed (c :: text) e := by
  unfold Lexeme.read at fails
  split at fails
  · split at fails
    · cases fails
      exact .escape
    · cases fails
  · cases taken : takeBrackets text with
    | error e =>
        rw [taken] at fails
        cases fails
        exact .brackets taken
    | ok found =>
        rw [taken] at fails
        cases fails
  · split at fails
    · rename_i unclosed
      cases fails
      exact .group unclosed
    · cases fails
  · cases fails
    exact .closing text
  · cases fails
  · cases fails
  · cases fails
  · split at fails <;> cases fails

/-- **A missing lexeme is not a missing operand.** -/
theorem Lexeme.read_ne_emptyAlternative {c : Char} {text : List Char} :
    Lexeme.read c text ≠ .error .emptyAlternative := by
  intro fails
  cases unlexed_of_read fails with
  | brackets fails =>
      rcases takeBrackets_error fails with unclosed | escape
      · cases unclosed
      · cases escape

/-! ## Steps -/

/-- The text is read from the first level, lexeme by lexeme, which leads to the last one. -/
inductive Reads : Level → List Char → Level → Prop where
  | stop (level : Level) : Reads level [] level
  | take {level next last : Level} {c : Char} {text rest : List Char} {lexeme : Lexeme}
      (reads : Lexeme.read c text = .ok (lexeme, rest)) (takes : level.take lexeme = .ok next)
      (more : Reads next rest last) : Reads level (c :: text) last

namespace Reads

variable {level middle last : Level} {text : List Char}

/-- **Where a text has been read, reading goes on with what follows.** -/
theorem parseLevel_append (reads : Reads level text last) (rest : List Char) :
    parseLevel level (text ++ rest) = parseLevel last rest := by
  induction reads with
  | stop level => rfl
  | take reads takes _ ih =>
      rw [List.cons_append, parseLevel_of_take (Lexeme.read_append_of_read reads rest) takes, ih]

theorem parseLevel_eq (reads : Reads level text last) : parseLevel level text = last.finish := by
  rw [← parseLevel_nil, ← reads.parseLevel_append [], List.append_nil]

end Reads

/-- The level does not take the lexeme, for the given reason. -/
inductive Level.Refuses (level : Level) : Lexeme → Malformed → Prop where
  | nothing (empty : level.branch = none) (q : Quantifier) :
      Refuses level (.quantifier q) (.nothingToRepeat q.toChar)
  | again {b : Branch} (here : level.branch = some b) (repeated : b.last.isRepeated = true)
      (q : Quantifier) : Refuses level (.quantifier q) (.repeatedOperator q.toChar)
  | bar (empty : level.branch = none) : Refuses level .bar .emptyAlternative
  | inside {inner : List Char} {e : Malformed} (refused : parseWhole inner = .error e) :
      Refuses level (.group inner) e
  | emptyGroup {inner : List Char} (empty : parseWhole inner = .ok none) :
      Refuses level (.group inner) .emptyGroup

/-- **A level refuses a lexeme for one of five reasons**, one of which lies inside a group. -/
theorem Level.refuses_of_take {level : Level} {lexeme : Lexeme} {e : Malformed}
    (fails : level.take lexeme = .error e) : level.Refuses lexeme e := by
  cases lexeme with
  | atom a => cases fails
  | caret => cases fails
  | quantifier q =>
      simp only [Level.take, Level.repeatLast] at fails
      split at fails
      · rename_i empty
        cases fails
        exact .nothing empty q
      · rename_i b here
        split at fails
        · rename_i repeated
          cases fails
          exact .again here repeated q
        · cases fails
  | bar =>
      simp only [Level.take, Level.closeBranch] at fails
      split at fails
      · rename_i empty
        cases fails
        exact .bar empty
      · cases fails
  | group inner =>
      simp only [Level.take] at fails
      split at fails
      · rename_i refused
        cases fails
        exact .inside refused
      · rename_i empty
        cases fails
        exact .emptyGroup empty
      · cases fails

/-- The reading of the text does not get past its first lexeme: there is none, or the level does
not take it. -/
inductive Stops (level : Level) : List Char → Malformed → Prop where
  | read {c : Char} {text : List Char} {e : Malformed}
      (fails : Lexeme.read c text = .error e) : Stops level (c :: text) e
  | take {c : Char} {text rest : List Char} {lexeme : Lexeme} {e : Malformed}
      (reads : Lexeme.read c text = .ok (lexeme, rest)) (refuses : level.take lexeme = .error e) :
      Stops level (c :: text) e

theorem Stops.parseLevel_eq {level : Level} {text : List Char} {e : Malformed}
    (stops : Stops level text e) : parseLevel level text = .error e := by
  cases stops with
  | read fails => rw [parseLevel_cons, fails]
  | take reads refuses =>
      rw [parseLevel_cons, reads]
      simp only [refuses]

/-- **A text is read to its end, or up to where the reading stops.** -/
theorem exists_reads (level : Level) (text : List Char) :
    ∃ front rest last, text = front ++ rest ∧ Reads level front last ∧
      (rest = [] ∨ ∃ e, Stops last rest e) := by
  match text with
  | [] => exact ⟨[], [], level, rfl, .stop level, .inl rfl⟩
  | c :: text =>
      cases read : Lexeme.read c text with
      | error e => exact ⟨[], c :: text, level, rfl, .stop level, .inr ⟨e, .read read⟩⟩
      | ok found =>
          obtain ⟨lexeme, rest⟩ := found
          have consumed := Lexeme.read_length read
          cases takes : level.take lexeme with
          | error e =>
              exact ⟨[], c :: text, level, rfl, .stop level, .inr ⟨e, .take read takes⟩⟩
          | ok next =>
              obtain ⟨front, left, last, rfl, more, ends⟩ := exists_reads next rest
              obtain ⟨tail, _, rfl, same⟩ := Lexeme.read_of_rest read
              refine ⟨c :: (tail ++ front), left, last, by simp, ?_, ends⟩
              exact .take (same front) takes more
termination_by text.length
decreasing_by
  simp only [List.length_cons]
  omega

/-- **A text can be read whole exactly if its steps lead to a complete level.** -/
theorem parseLevel_eq_ok_iff (level : Level) (text : List Char) {result : Option Expr} :
    parseLevel level text = .ok result ↔
      ∃ last, Reads level text last ∧ last.finish = .ok result := by
  constructor
  · intro parses
    obtain ⟨front, rest, last, rfl, reads, rfl | ⟨e, stops⟩⟩ := exists_reads level text
    · rw [List.append_nil] at parses ⊢
      rw [reads.parseLevel_eq] at parses
      exact ⟨last, reads, parses⟩
    · rw [reads.parseLevel_append, stops.parseLevel_eq] at parses
      cases parses
  · rintro ⟨last, reads, finishes⟩
    rw [reads.parseLevel_eq, finishes]

/-! ## The end of a text -/

theorem endsInEscape_of_lexed {text rest : List Char} {lexeme : Lexeme}
    (lexed : Lexed text lexeme rest) : endsInEscape text = endsInEscape rest := by
  have single : ∀ c : Char, c ≠ '\\' → endsInEscape ([c] ++ rest) = endsInEscape rest :=
    fun c other => endsInEscape_append (endsInEscape_concat other []) rest
  cases lexed with
  | char writes => exact endsInEscape_append (lexical_endsInEscape.of_writesChar writes) rest
  | any => exact single '.' (by decide)
  | brackets contents => exact endsInEscape_append (lexical_endsInEscape.brackets contents) rest
  | group inner =>
      exact endsInEscape_append (endsInEscape_concat (by decide) ('(' :: inner)) rest
  | quantifier q => exact endsInEscape_append (lexical_endsInEscape.of_quantifier q) rest
  | bar => exact single '|' (by decide)
  | caret => exact single '^' (by decide)

theorem Reads.endsInEscape_eq_false {level last : Level} {text : List Char}
    (reads : Reads level text last) : endsInEscape text = false := by
  induction reads with
  | stop => rfl
  | take reads _ _ ih => rw [endsInEscape_of_lexed (lexed_of_read reads), ih]

section Behind

variable {more : List Char} (unclosing : ']' ∉ more ∧ ')' ∉ more)
include unclosing

/-- **A lexeme does not reach into a text behind** that closes nothing, unless it is an escape
at the end. -/
theorem Lexeme.read_of_read_append {c : Char} {text rest : List Char} {lexeme : Lexeme}
    (complete : endsInEscape (c :: text) = false)
    (reads : Lexeme.read c (text ++ more) = .ok (lexeme, rest)) :
    ∃ left, rest = left ++ more ∧ Lexeme.read c text = .ok (lexeme, left) := by
  obtain ⟨tail, ends, whole, same⟩ := Lexeme.read_of_rest reads
  suffices ∃ left, rest = left ++ more ∧ text = tail ++ left by
    obtain ⟨left, rfl, rfl⟩ := this
    exact ⟨left, rfl, same left⟩
  rcases List.append_eq_append_iff.mp whole with ⟨beyond, longer, behind⟩ | ⟨left, inside, after⟩
  · cases ends with
    | single =>
        obtain ⟨rfl, rfl⟩ := List.append_eq_nil_iff.mp longer.symm
        exact ⟨[], behind.symm, rfl⟩
    | escaped escape d =>
        cases text with
        | nil =>
            rw [escape] at complete
            cases complete
        | cons _ left =>
            simp only [List.cons_append, List.cons.injEq, List.nil_eq,
              List.append_eq_nil_iff] at longer
            obtain ⟨rfl, rfl, rfl⟩ := longer
            exact ⟨[], behind.symm, rfl⟩
    | @closed inner closing closes =>
        -- the closing character would stand behind
        rcases List.eq_nil_or_concat beyond with rfl | ⟨front, last, rfl⟩
        · exact ⟨[], behind.symm, by simpa using longer.symm⟩
        · have same : closing = last := by simpa using congrArg List.getLast? longer
          have member : closing ∈ more := by simp [behind, same]
          rcases closes with rfl | rfl
          · exact absurd member unclosing.1
          · exact absurd member unclosing.2
  · exact ⟨left, after, inside⟩

/-- Where a reading stops it also stops with more behind, though perhaps for another reason. -/
theorem Stops.append {level : Level} {text : List Char} {e : Malformed}
    (stops : Stops level text e) (complete : endsInEscape text = false) :
    ∃ e', Stops level (text ++ more) e' := by
  cases stops with
  | @read c text e fails =>
      cases read : Lexeme.read c (text ++ more) with
      | error e' => exact ⟨e', .read read⟩
      | ok found =>
          obtain ⟨left, _, reads⟩ := Lexeme.read_of_read_append unclosing complete read
          rw [fails] at reads
          cases reads
  | take reads refuses => exact ⟨e, .take (Lexeme.read_append_of_read reads more) refuses⟩

/-- **What can be read with more behind it leads to a level**, if it does not end in an escape
and nothing behind it closes a group or brackets. -/
theorem exists_reads_of_append (level : Level) (text : List Char) {result : Option Expr}
    (complete : endsInEscape text = false)
    (parses : parseLevel level (text ++ more) = .ok result) : ∃ last, Reads level text last := by
  obtain ⟨front, rest, last, rfl, reads, rfl | ⟨e, stops⟩⟩ := exists_reads level text
  · rw [List.append_nil]
    exact ⟨last, reads⟩
  · exfalso
    rw [endsInEscape_append reads.endsInEscape_eq_false] at complete
    obtain ⟨e', stops'⟩ := stops.append unclosing complete
    rw [List.append_assoc, reads.parseLevel_append, stops'.parseLevel_eq] at parses
    cases parses

end Behind

/-! ## Empty branches -/

theorem Lexeme.read_bar_eq {c : Char} {text rest : List Char}
    (reads : Lexeme.read c text = .ok (.bar, rest)) : c = '|' ∧ text = rest := by
  have lexed := lexed_of_read reads
  generalize whole : c :: text = word at lexed
  cases lexed
  exact List.cons.inj whole

theorem Lexeme.read_caret_eq {c : Char} {text rest : List Char}
    (reads : Lexeme.read c text = .ok (.caret, rest)) : c = '^' ∧ text = rest := by
  have lexed := lexed_of_read reads
  generalize whole : c :: text = word at lexed
  cases lexed
  exact List.cons.inj whole

/-- A branch is empty after a bar that closes one, or after a caret if it was empty before. -/
theorem Level.take_empty {level next : Level} {lexeme : Lexeme}
    (takes : level.take lexeme = .ok next) (empty : next.branch = none) :
    lexeme = .bar ∧ level.branch.isSome ∨ lexeme = .caret ∧ level.branch = none := by
  cases lexeme with
  | atom a =>
      cases takes
      cases empty
  | group inner =>
      simp only [Level.take] at takes
      split at takes <;> cases takes
      cases empty
  | quantifier q =>
      simp only [Level.take, Level.repeatLast] at takes
      split at takes
      · cases takes
      · split at takes <;> cases takes
        cases empty
  | bar =>
      simp only [Level.take, Level.closeBranch] at takes
      split at takes
      · cases takes
      · rename_i branch here
        exact .inl ⟨rfl, by rw [here]; rfl⟩
  | caret =>
      cases takes
      exact .inr ⟨rfl, empty⟩

/-- **A text that leads to an empty branch** has nothing but carets, or ends in a bar and
carets. -/
theorem Reads.bar_at_end {level last : Level} {text : List Char}
    (reads : Reads level text last) (empty : last.branch = none) :
    (level.branch = none ∧ ∀ c ∈ text, c = '^') ∨
      ∃ front carets before, text = front ++ '|' :: carets ∧ (∀ c ∈ carets, c = '^') ∧
        Reads level front before ∧ before.branch.isSome := by
  induction reads with
  | stop level => exact .inl ⟨empty, fun c member => absurd member List.not_mem_nil⟩
  | @take level next last c text rest lexeme reads takes more ih =>
      rcases ih empty with ⟨nextEmpty, all⟩ | ⟨front, carets, before, rfl, all, reads', nonempty⟩
      · rcases Level.take_empty takes nextEmpty with ⟨rfl, nonempty⟩ | ⟨rfl, levelEmpty⟩
        · obtain ⟨rfl, rfl⟩ := Lexeme.read_bar_eq reads
          exact .inr ⟨[], text, level, rfl, all, .stop level, nonempty⟩
        · obtain ⟨rfl, rfl⟩ := Lexeme.read_caret_eq reads
          exact .inl ⟨levelEmpty, List.forall_mem_cons.mpr ⟨rfl, all⟩⟩
      · obtain ⟨tail, _, rfl, same⟩ := Lexeme.read_of_rest reads
        refine .inr ⟨c :: (tail ++ front), carets, before, by simp, all, ?_, nonempty⟩
        exact .take (same front) takes reads'

end RegexAutomaton.Pattern
