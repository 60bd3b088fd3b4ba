import RegexAutomaton.Proofs.Lasting
import RegexAutomaton.Proofs.Repeating
import RegexAutomaton.Proofs.Scanning

/-!
# What a group encloses

The text of a group is looked for by counting parentheses, and read afterwards by the reader of
levels.  Both take the same characters for parentheses.

**The end of a group.** A parenthesis counts if the scan meets it between lexemes (`bare`).  A
closing one closes the group around it if the text before it closes as many groups as it
opens (`Closes`).  The search ends at the first such parenthesis, and fails if there is none
(`seek_eq_some_iff`, `seek_eq_none_iff`).

**Inside the group.** The text of a group is enclosed: the search finds the parenthesis right
behind it, and it does so from any place up to which the text has been read
(`Enclosed.of_reads`).  So the reader meets no escape, brackets or group that the text does not
complete, and nothing closed that was not opened (`Enclosed.unlexed`).  What is left are the
faults of operands and operators, and backslashes between brackets.

**Result.** Reading an opening parenthesis delivers the text up to the parenthesis that closes
the group, and that text has no fault in its delimiters (`delimiters_agree`).
-/

set_option autoImplicit false

namespace RegexAutomaton.Pattern

open Grammar (Balanced lexical_balanced balanced_of_parseWhole lexed_of_read)

/-! ## Parentheses that count -/

/-- The characters of a text that the scan meets between lexemes: neither escaped nor inside
brackets. -/
def bare : Mode → List Char → List Char
  | _, [] => []
  | mode, c :: text =>
    if mode = .plain then c :: bare (mode.after c) text else bare (mode.after c) text

/-- A parenthesis behind the text closes the group that is searched: it stands between lexemes,
and the text closes all groups that it opens and those that were opened before. -/
def Closes (depth : Nat) (mode : Mode) (front : List Char) : Prop :=
  scan mode front = .plain ∧
    (bare mode front).count ')' = depth + (bare mode front).count '('

/-- The first parenthesis that closes the group which is searched. -/
structure ClosesFirst (depth : Nat) (mode : Mode) (text inner rest : List Char) : Prop where
  split : text = inner ++ ')' :: rest
  closes : Closes depth mode inner
  first : ∀ front back, text = front ++ ')' :: back → Closes depth mode front →
    inner.length ≤ front.length

variable {depth : Nat} {mode : Mode} {c : Char} {text inner rest : List Char}

theorem closes_nil : Closes depth mode [] ↔ mode = .plain ∧ depth = 0 := by
  simp [Closes, bare, eq_comm]

/-- Counting goes on at the depth after the first character. -/
theorem closes_cons (searching : ¬(mode = .plain ∧ c = ')' ∧ depth = 0)) :
    Closes depth mode (c :: text) ↔ Closes (depthAfter depth mode c) (mode.after c) text := by
  rw [Closes, Closes, scan_cons, bare, depthAfter]
  by_cases plain : mode = .plain
  · by_cases opening : c = '('
    · subst opening
      simp [plain]
      omega
    by_cases closing : c = ')'
    · subst closing
      have inside : depth ≠ 0 := fun outside => searching ⟨plain, rfl, outside⟩
      simp [plain]
      omega
    · simp [plain, opening, closing]
  · simp [plain]

/-! ## The end of a group -/

theorem ClosesFirst.cons (searching : ¬(mode = .plain ∧ c = ')' ∧ depth = 0))
    (found : ClosesFirst (depthAfter depth mode c) (mode.after c) text inner rest) :
    ClosesFirst depth mode (c :: text) (c :: inner) rest where
  split := congrArg (c :: ·) found.split
  closes := (closes_cons searching).mpr found.closes
  first front back split closes := by
    cases front with
    | nil =>
        obtain ⟨rfl, _⟩ := List.cons.inj split
        obtain ⟨plain, outside⟩ := closes_nil.mp closes
        exact absurd ⟨plain, rfl, outside⟩ searching
    | cons d front =>
        obtain ⟨rfl, behind⟩ := List.cons.inj split
        exact Nat.succ_le_succ (found.first front back behind ((closes_cons searching).mp closes))

/-- **What the search finds** ends at the first parenthesis that closes the group. -/
theorem closesFirst_of_seek (found : seek depth mode text = some (inner, rest)) :
    ClosesFirst depth mode text inner rest := by
  induction text generalizing depth mode inner with
  | nil =>
      rw [seek_nil] at found
      cases found
  | cons c text ih =>
      by_cases here : mode = .plain ∧ c = ')' ∧ depth = 0
      · obtain ⟨rfl, rfl, rfl⟩ := here
        rw [seek_closing] at found
        cases found
        exact ⟨rfl, closes_nil.mpr ⟨rfl, rfl⟩, fun front back _ _ => Nat.zero_le _⟩
      · rw [seek_cons here] at found
        obtain ⟨tail, further, rfl⟩ := exists_tail_of_map [c] found
        exact (ih further).cons here

/-- **The search does not pass over a parenthesis that closes the group.** -/
theorem exists_seek_of_closes {front : List Char} (closes : Closes depth mode front)
    (back : List Char) :
    ∃ inner rest, seek depth mode (front ++ ')' :: back) = some (inner, rest) := by
  induction front generalizing depth mode with
  | nil =>
      obtain ⟨rfl, rfl⟩ := closes_nil.mp closes
      exact ⟨[], back, seek_closing back⟩
  | cons c front ih =>
      by_cases here : mode = .plain ∧ c = ')' ∧ depth = 0
      · obtain ⟨rfl, rfl, rfl⟩ := here
        exact ⟨[], front ++ ')' :: back, seek_closing _⟩
      · obtain ⟨inner, rest, found⟩ := ih ((closes_cons here).mp closes)
        refine ⟨c :: inner, rest, ?_⟩
        rw [List.cons_append, seek_cons here, found]
        rfl

/-- **The search finds the first parenthesis that closes the group**, and nothing else. -/
theorem seek_eq_some_iff :
    seek depth mode text = some (inner, rest) ↔ ClosesFirst depth mode text inner rest := by
  refine ⟨closesFirst_of_seek, fun target => ?_⟩
  obtain ⟨inner', rest', found⟩ := exists_seek_of_closes target.closes rest
  rw [← target.split] at found
  have other := closesFirst_of_seek found
  have sameLength : inner.length = inner'.length := Nat.le_antisymm
    (target.first inner' rest' other.split other.closes)
    (other.first inner rest target.split target.closes)
  have same : inner ++ ')' :: rest = inner' ++ ')' :: rest' := target.split.symm.trans other.split
  obtain ⟨rfl, behind⟩ := List.append_inj same sameLength
  obtain ⟨_, rfl⟩ := List.cons.inj behind
  exact found

/-- **The search fails if no parenthesis closes the group**, and only then. -/
theorem seek_eq_none_iff : seek depth mode text = none ↔
    ¬∃ front back, text = front ++ ')' :: back ∧ Closes depth mode front := by
  constructor
  · rintro lost ⟨front, back, rfl, closes⟩
    obtain ⟨inner, rest, found⟩ := exists_seek_of_closes closes back
    rw [lost] at found
    cases found
  · intro unclosed
    cases found : seek depth mode text with
    | none => rfl
    | some parts =>
        obtain ⟨inner, rest⟩ := parts
        have target := closesFirst_of_seek found
        exact absurd ⟨inner, rest, target.split, target.closes⟩ unclosed

/-- What the search passes over with one more group open holds the end of the search without
it. -/
theorem exists_seek_of_deeper (found : seek (depth + 1) mode text = some (inner, rest)) :
    ∃ inner' rest', seek depth mode inner = some (inner', rest') := by
  induction text generalizing depth mode inner with
  | nil =>
      rw [seek_nil] at found
      cases found
  | cons c text ih =>
      have deeper : ¬(mode = .plain ∧ c = ')' ∧ depth + 1 = 0) := fun ⟨_, _, zero⟩ => by cases zero
      rw [seek_cons deeper] at found
      obtain ⟨tail, further, rfl⟩ := exists_tail_of_map [c] found
      by_cases here : mode = .plain ∧ c = ')' ∧ depth = 0
      · obtain ⟨rfl, rfl, rfl⟩ := here
        exact ⟨[], tail, seek_closing tail⟩
      · have next : depthAfter (depth + 1) mode c = depthAfter depth mode c + 1 := by
          unfold depthAfter
          grind
        rw [next] at further
        obtain ⟨inner', rest', found⟩ := ih further
        refine ⟨c :: inner', rest', ?_⟩
        rw [List.singleton_append, seek_cons here, found]
        rfl

/-! ## Inside a group -/

/-- The faults that the text of a group may have. -/
inductive Malformed.WithinGroup : Malformed → Prop where
  | nothingToRepeat (operator : Char) : WithinGroup (.nothingToRepeat operator)
  | repeatedOperator (operator : Char) : WithinGroup (.repeatedOperator operator)
  | emptyAlternative : WithinGroup .emptyAlternative
  | escapeInBrackets : WithinGroup .escapeInBrackets
  | emptyGroup : WithinGroup .emptyGroup

/-- **What has been read is passed over by the search**, at any depth. -/
theorem Reads.balanced {level last : Level} (reads : Reads level text last) : Balanced text := by
  induction reads with
  | stop level => exact lexical_balanced.nil
  | @take level next last c text rest lexeme reads takes _ ih =>
      have inside : ∀ inner, lexeme = .group inner → Balanced inner := by
        rintro inner rfl
        cases parses : parseWhole inner with
        | ok result => exact balanced_of_parseWhole parses
        | error e =>
            simp only [Level.take, parses] at takes
            cases takes
      obtain ⟨front, split, balanced⟩ := lexical_balanced.of_lexed (lexed_of_read reads) inside
      rw [split]
      exact lexical_balanced.append balanced ih

/-- The search for the end of a group finds the parenthesis right behind the text. -/
def Enclosed (text : List Char) : Prop :=
  ∀ rest, takeGroup 0 false (text ++ ')' :: rest) = some (text, rest)

theorem enclosed_of_takeGroup (taken : takeGroup 0 false text = some (inner, rest)) :
    Enclosed inner :=
  takeGroup_of_rest taken

namespace Enclosed

/-- **Where an enclosed text has been read up to some place, the rest of it is enclosed.** -/
theorem of_reads {level last : Level} {front : List Char} (enclosed : Enclosed (front ++ text))
    (reads : Reads level front last) : Enclosed text := by
  intro rest
  have found := enclosed rest
  rw [List.append_assoc, reads.balanced] at found
  obtain ⟨tail, found, same⟩ := exists_tail_of_map front found
  rwa [← List.append_cancel_left same] at found

/-- **The delimiters of an enclosed text are complete**: no lexeme is missing in it but for a
backslash between brackets. -/
theorem unlexed {e : Malformed} (enclosed : Enclosed text) (missing : Unlexed text e) :
    e = .escapeInBrackets := by
  have found := enclosed []
  cases missing with
  | escape =>
      -- the parenthesis behind the text would be escaped
      cases found
  | @brackets text _ fails =>
      have closed : scan .bracketed text = .plain := scan_of_takeGroup found
      rcases takeBrackets_of_scan closed with escape | ⟨contents, left, _, _, ends⟩
      · have fails' := escape []
        rw [List.append_nil, fails] at fails'
        exact Except.error.inj fails'
      · have ends := ends []
        rw [List.append_nil, fails] at ends
        cases ends
  | @group text unclosed =>
      rw [List.cons_append, takeGroup_opening] at found
      obtain ⟨tail, found, same⟩ := exists_tail_of_map ['('] found
      obtain rfl : text = tail := (List.cons.inj same).2
      have deeper : seek (0 + 1) .plain (text ++ [')']) = some (text, []) := found
      obtain ⟨inner, rest, earlier⟩ := exists_seek_of_deeper deeper
      rw [seek, unclosed] at earlier
      cases earlier
  | closing text =>
      rw [List.cons_append, takeGroup_closing_zero] at found
      cases found

/-- **The text of a group has no fault in its delimiters**, at any depth. -/
theorem withinGroup {text : List Char} {e : Malformed} (enclosed : Enclosed text)
    (refused : parseWhole text = .error e) : e.WithinGroup := by
  obtain ⟨front, rest, last, whole, reads, ends⟩ := exists_reads .start text
  subst whole
  rw [parseWhole, reads.parseLevel_append] at refused
  rcases ends with rfl | ⟨e', stops⟩
  · rw [parseLevel_nil] at refused
    rw [Level.eq_of_finish_eq_error refused]
    exact .emptyAlternative
  · rw [stops.parseLevel_eq] at refused
    cases refused
    cases stops with
    | read fails =>
        rw [(enclosed.of_reads reads).unlexed (unlexed_of_read fails)]
        exact .escapeInBrackets
    | @take c text rest lexeme _ read refuses =>
        cases Level.refuses_of_take refuses with
        | nothing _ q => exact .nothingToRepeat q.toChar
        | again _ _ q => exact .repeatedOperator q.toChar
        | bar => exact .emptyAlternative
        | emptyGroup => exact .emptyGroup
        | inside refused =>
            obtain ⟨_, rfl, taken⟩ := Lexeme.read_group_eq read
            exact (enclosed_of_takeGroup taken).withinGroup refused
termination_by text.length
decreasing_by
  subst_vars
  simp only [List.length_append, List.length_cons]
  omega

end Enclosed

/-! ## Search and reading -/

/-- **The search for the end of a group and the reading of its text take the same delimiters.**

The search delivers the text up to the first parenthesis that closes the group, where escaped
characters and brackets do not count, and an opening parenthesis is refused exactly if no
parenthesis closes its group.  The text that is delivered has no fault in its delimiters: what it
may be refused for is an operator or an alternative without operand, an operator behind
another one, an empty group, or a backslash between brackets. -/
theorem delimiters_agree (text : List Char) :
    (∀ inner rest, takeGroup 0 false text = some (inner, rest) ↔
      text = inner ++ ')' :: rest ∧ Closes 0 .plain inner ∧
        ∀ front back, text = front ++ ')' :: back → Closes 0 .plain front →
          inner.length ≤ front.length) ∧
    (∀ inner rest e, takeGroup 0 false text = some (inner, rest) →
      parseWhole inner = .error e → e.WithinGroup) ∧
    (Lexeme.read '(' text = .error .unclosedGroup ↔
      ¬∃ front back, text = front ++ ')' :: back ∧ Closes 0 .plain front) := by
  refine ⟨fun inner rest => ?_, fun inner rest e taken refused => ?_, ?_⟩
  · show seek 0 .plain text = some (inner, rest) ↔ _
    rw [seek_eq_some_iff]
    exact ⟨fun target => ⟨target.split, target.closes, target.first⟩,
      fun ⟨split, closes, first⟩ => ⟨split, closes, first⟩⟩
  · exact (enclosed_of_takeGroup taken).withinGroup refused
  · rw [← seek_eq_none_iff, Lexeme.read, seek]
    cases takeGroup 0 false text with
    | none => exact iff_of_true rfl rfl
    | some parts => exact iff_of_false (fun same => by cases same) (fun same => by cases same)

/-- A group that holds a parenthesis and a backslash between brackets, an escaped parenthesis,
and a group.  The search takes the backslash as it stands, and the reader refuses it. -/
theorem delimiters_agree_brackets_in_group :
    takeGroup 0 false ['[', '(', '\\', ']', '\\', ')', '(', 'b', ')', ')', 'c', ')'] =
      some (['[', '(', '\\', ']', '\\', ')', '(', 'b', ')'], ['c', ')']) ∧
    Closes 0 .plain ['[', '(', '\\', ']', '\\', ')', '(', 'b', ')'] ∧
    parseWhole ['[', '(', '\\', ']', '\\', ')', '(', 'b', ')'] = .error .escapeInBrackets ∧
    Malformed.WithinGroup .escapeInBrackets := by
  obtain ⟨found, faults, _⟩ :=
    delimiters_agree ['[', '(', '\\', ']', '\\', ')', '(', 'b', ')', ')', 'c', ')']
  have taken : takeGroup 0 false
      ['[', '(', '\\', ']', '\\', ')', '(', 'b', ')', ')', 'c', ')'] =
      some (['[', '(', '\\', ']', '\\', ')', '(', 'b', ')'], ['c', ')']) := rfl
  have refused : parseWhole ['[', '(', '\\', ']', '\\', ')', '(', 'b', ')'] =
      .error .escapeInBrackets := by
    cbv
  exact ⟨taken, ((found _ _).mp taken).2.1, refused, faults _ _ _ taken refused⟩

end RegexAutomaton.Pattern
