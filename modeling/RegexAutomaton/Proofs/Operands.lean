import RegexAutomaton.Proofs.Continuing

/-!
# Operands at the ends of a pattern

A text is refused for want of an operand exactly if one is missing beside a bar: at the ends
of the text, between two bars, or inside a group (`parseWhole_eq_emptyAlternative_iff`).

A pattern without anchors is read after `.*`, and with `.*` behind it.  What can be read next
depends on little of what has been read before: whether a bar has closed a branch, and whether
the open branch has an item that ends in an operator, or an item at all.  Levels that agree
on this (`Level.Alike`) take the same lexemes and stay alike (`Reads.alike`).  The level after
`.*` is alike to the start of the text once an item has been read, and neither place lets an
operator follow.  They differ if a bar comes first, since a bar takes the `.*` for the operand
on its left.  In the same way a bar at the end takes the `.*` behind it for the operand on its
right.

**Result.** Unless an operand at one of the ends is missing (`LacksOuterOperand`), a pattern
without anchors can be read exactly if it can be read with both anchors
(`parse_isOk_iff_anchored`).
-/

set_option autoImplicit false

namespace RegexAutomaton.Pattern

open Grammar (caretIf parseLevel_carets)

/-! ## Levels that take the same lexemes -/

namespace Level

/-- The levels agree on whether a branch is closed, and on whether the last item of the open
branch ends in an operator. -/
structure Alike (level other : Level) : Prop where
  closed : level.closed = [] ↔ other.closed = []
  branch : level.branch.map (·.last.isRepeated) = other.branch.map (·.last.isRepeated)

variable {level other next : Level}

/-- No operator can follow. -/
def RefusesOperators (level : Level) : Prop := ∀ b ∈ level.branch, b.last.isRepeated = true

/-- A test or a group makes levels alike that agree on whether a branch is closed. -/
theorem take_operand (closed : level.closed = [] ↔ other.closed = []) {lexeme : Lexeme}
    (operand : (∃ a, lexeme = .atom a) ∨ ∃ inner, lexeme = .group inner)
    (takes : level.take lexeme = .ok next) :
    ∃ next', other.take lexeme = .ok next' ∧ next.Alike next' := by
  rcases operand with ⟨a, rfl⟩ | ⟨inner, rfl⟩
  · cases takes
    exact ⟨_, rfl, closed, rfl⟩
  · simp only [Level.take] at takes ⊢
    split at takes <;> cases takes
    exact ⟨_, rfl, closed, rfl⟩

/-- **An item makes levels alike** that agree on whether a branch is closed, if the first one
lets no operator follow. -/
theorem take_item (closed : level.closed = [] ↔ other.closed = [])
    (refuses : level.RefusesOperators) {lexeme : Lexeme}
    (item : lexeme ≠ .bar ∧ lexeme ≠ .caret) (takes : level.take lexeme = .ok next) :
    ∃ next', other.take lexeme = .ok next' ∧ next.Alike next' := by
  cases lexeme with
  | atom a => exact take_operand closed (.inl ⟨a, rfl⟩) takes
  | group inner => exact take_operand closed (.inr ⟨inner, rfl⟩) takes
  | quantifier q =>
      simp only [Level.take, Level.repeatLast] at takes
      split at takes
      · cases takes
      · rename_i b here
        rw [if_pos (refuses b here)] at takes
        cases takes
  | bar => exact absurd rfl item.1
  | caret => exact absurd rfl item.2

/-- **A lexeme that one of two alike levels takes, the other takes too**, and they stay
alike. -/
theorem Alike.take (alike : level.Alike other) {lexeme : Lexeme}
    (takes : level.take lexeme = .ok next) :
    ∃ next', other.take lexeme = .ok next' ∧ next.Alike next' := by
  cases lexeme with
  | atom a => exact take_operand alike.closed (.inl ⟨a, rfl⟩) takes
  | group inner => exact take_operand alike.closed (.inr ⟨inner, rfl⟩) takes
  | caret =>
      cases takes
      exact ⟨_, rfl, alike.closed, alike.branch⟩
  | bar =>
      obtain ⟨closed, _ | b, caret⟩ := level
      · cases takes
      · obtain ⟨closed', _ | b', caret'⟩ := other
        · cases alike.branch
        · cases takes
          exact ⟨_, rfl, iff_of_false (List.cons_ne_nil _ _) (List.cons_ne_nil _ _), rfl⟩
  | quantifier q =>
      obtain ⟨closed, _ | b, caret⟩ := level
      · cases takes
      · obtain ⟨closed', _ | b', caret'⟩ := other
        · cases alike.branch
        · have same : b.last.isRepeated = b'.last.isRepeated := Option.some.inj alike.branch
          simp only [Level.take, Level.repeatLast] at takes ⊢
          split at takes
          · cases takes
          · rename_i unrepeated
            cases takes
            rw [if_neg (same ▸ unrepeated)]
            exact ⟨_, rfl, alike.closed, rfl⟩

end Level

namespace Reads

variable {level other last : Level} {text : List Char}

/-- **A text leads alike levels to alike levels.** -/
theorem alike (reads : Reads level text last) (same : level.Alike other) :
    ∃ last', Reads other text last' ∧ last.Alike last' := by
  induction reads generalizing other with
  | stop level => exact ⟨other, .stop other, same⟩
  | take reads takes _ ih =>
      obtain ⟨next', takes', same'⟩ := same.take takes
      obtain ⟨last', more', ended⟩ := ih same'
      exact ⟨last', .take reads takes' more', ended⟩

/-- A text that starts with an item leads levels to alike ones if the first one lets no operator
follow. -/
theorem alike_of_item (closed : level.closed = [] ↔ other.closed = [])
    (refuses : level.RefusesOperators) (nonempty : text ≠ [])
    (item : text.head? ≠ some '|' ∧ text.head? ≠ some '^') (reads : Reads level text last) :
    ∃ last', Reads other text last' ∧ last.Alike last' := by
  cases reads with
  | stop => exact absurd rfl nonempty
  | @take _ next _ c text rest lexeme reads takes more =>
      have notBar : lexeme ≠ .bar := by
        rintro rfl
        exact item.1 (congrArg some (Lexeme.read_bar_eq reads).1)
      have notCaret : lexeme ≠ .caret := by
        rintro rfl
        exact item.2 (congrArg some (Lexeme.read_caret_eq reads).1)
      obtain ⟨next', takes', same⟩ := Level.take_item closed refuses ⟨notBar, notCaret⟩ takes
      obtain ⟨last', more', ended⟩ := more.alike same
      exact ⟨last', .take reads takes' more', ended⟩

end Reads

/-! ## What stands beside a bar -/

/-- A bar and carets end the reading, or lead to a level with an empty branch. -/
theorem parseLevel_bar (level : Level) {carets : List Char} (all : ∀ c ∈ carets, c = '^')
    (rest : List Char) :
    parseLevel level ('|' :: carets ++ rest) = .error .emptyAlternative ∨
      ∃ next : Level, next.branch = none ∧ next.closed ≠ [] ∧
        parseLevel level ('|' :: carets ++ rest) = parseLevel next rest := by
  obtain ⟨closed, _ | branch, caret⟩ := level
  · left
    rw [List.cons_append, parseLevel_cons]
    rfl
  · right
    have closes : Level.take ⟨closed, some branch, caret⟩ .bar =
        .ok ⟨branch.expr :: closed, none, caret⟩ := rfl
    refine ⟨_, ?_, ?_, (parseLevel_of_take rfl closes).trans (parseLevel_carets all _ rest)⟩
    · rfl
    · exact List.cons_ne_nil _ _

/-- **A bar with nothing but carets behind it** is refused. -/
theorem parseLevel_bar_at_end (level : Level) {carets : List Char}
    (all : ∀ c ∈ carets, c = '^') :
    parseLevel level ('|' :: carets) = .error .emptyAlternative := by
  have reading := parseLevel_bar level all []
  rw [List.append_nil] at reading
  rcases reading with refused | ⟨⟨closed, branch, caret⟩, rfl, nonempty, reads⟩
  · exact refused
  · rw [reads, parseLevel_nil]
    cases closed with
    | nil => exact absurd rfl nonempty
    | cons e closed => rfl

/-- **Two bars with nothing but carets between them** are refused. -/
theorem parseLevel_two_bars (level : Level) {carets : List Char} (all : ∀ c ∈ carets, c = '^')
    (rest : List Char) :
    parseLevel level ('|' :: carets ++ '|' :: rest) = .error .emptyAlternative := by
  rcases parseLevel_bar level all ('|' :: rest) with
    refused | ⟨⟨closed, branch, caret⟩, rfl, _, reads⟩
  · exact refused
  · rw [reads, parseLevel_cons]
    rfl

theorem Reads.exists_parseWhole {text : List Char} {last : Level}
    (reads : Reads .start text last) (item : last.branch.isSome) :
    ∃ e, parseWhole text = .ok e := by
  obtain ⟨b, here⟩ := Option.isSome_iff_exists.mp item
  exact ⟨_, by rw [parseWhole, reads.parseLevel_eq, Level.finish, here]⟩

theorem exists_reads_of_parseWhole {text : List Char}
    (readable : ∃ e, parseWhole text = .ok e) : ∃ last, Reads .start text last := by
  obtain ⟨e, parses⟩ := readable
  obtain ⟨last, reads, _⟩ := (parseLevel_eq_ok_iff _ _).mp parses
  exact ⟨last, reads⟩

/-- A text that leads to an empty branch has nothing but carets, or a bar and carets behind a
text which can be read. -/
theorem Reads.readable_before_bar {text : List Char} {last : Level}
    (reads : Reads .start text last) (empty : last.branch = none) :
    (∀ c ∈ text, c = '^') ∨ ∃ front carets, text = front ++ '|' :: carets ∧
      (∀ c ∈ carets, c = '^') ∧ ∃ e, parseWhole front = .ok e := by
  rcases reads.bar_at_end empty with ⟨_, all⟩ | ⟨front, carets, _, split, all, before, item⟩
  · exact .inl all
  · exact .inr ⟨front, carets, split, all, before.exists_parseWhole item⟩

/-- **A group that is refused** is refused wherever it can be reached. -/
theorem parseLevel_refused_group {inner back : List Char}
    (closes : takeGroup 0 false (inner ++ ')' :: back) = some (inner, back)) {e : Malformed}
    (refused : parseWhole inner = .error e) (level : Level) (other : List Char) :
    parseLevel level ('(' :: (inner ++ ')' :: other)) = .error e := by
  have reads : Lexeme.read '(' (inner ++ ')' :: other) = .ok (.group inner, other) := by
    rw [Lexeme.read, takeGroup_of_rest closes]
  have refuses : level.take (.group inner) = .error e := by
    simp only [Level.take, refused]
  exact (Stops.take reads refuses).parseLevel_eq

/-! ## Missing operands -/

/-- An operand is missing at one of the ends: nothing but carets comes before a bar, or after
a bar that follows a text which can be read. -/
inductive LacksOuterOperand : List Char → Prop where
  | first {carets : List Char} (all : ∀ c ∈ carets, c = '^') (rest : List Char) :
      LacksOuterOperand (carets ++ '|' :: rest)
  | last {front carets : List Char} (readable : ∃ e, parseWhole front = .ok e)
      (all : ∀ c ∈ carets, c = '^') : LacksOuterOperand (front ++ '|' :: carets)

/-- An operand is missing, and what comes before it can be read: one at the ends, one between
two bars, or one inside a group. -/
inductive LacksOperand : List Char → Prop where
  | outer {text : List Char} (lacks : LacksOuterOperand text) : LacksOperand text
  | between {front carets : List Char} (readable : ∃ e, parseWhole front = .ok e)
      (all : ∀ c ∈ carets, c = '^') (back : List Char) :
      LacksOperand (front ++ ('|' :: carets ++ '|' :: back))
  | inside {front inner back : List Char} {level : Level} (reads : Reads .start front level)
      (closes : takeGroup 0 false (inner ++ ')' :: back) = some (inner, back))
      (lacks : LacksOperand inner) : LacksOperand (front ++ '(' :: (inner ++ ')' :: back))

theorem LacksOuterOperand.parseWhole_eq {text : List Char} (lacks : LacksOuterOperand text) :
    parseWhole text = .error .emptyAlternative := by
  cases lacks with
  | first all rest =>
      rw [parseWhole, parseLevel_carets all, parseLevel_cons]
      rfl
  | last readable all =>
      obtain ⟨last, reads⟩ := exists_reads_of_parseWhole readable
      rw [parseWhole, reads.parseLevel_append]
      exact parseLevel_bar_at_end last all

theorem LacksOperand.parseWhole_eq {text : List Char} (lacks : LacksOperand text) :
    parseWhole text = .error .emptyAlternative := by
  induction lacks with
  | outer lacks => exact lacks.parseWhole_eq
  | between readable all back =>
      obtain ⟨last, reads⟩ := exists_reads_of_parseWhole readable
      rw [parseWhole, reads.parseLevel_append]
      exact parseLevel_two_bars last all back
  | @inside front inner back level reads closes _ ih =>
      rw [parseWhole, reads.parseLevel_append]
      exact parseLevel_refused_group closes ih level back

/-- What stops a reading for want of an operand: a bar where the open branch is empty, or a
group with this fault. -/
theorem Stops.lacks_operand {level : Level} {text : List Char}
    (stops : Stops level text .emptyAlternative) :
    (∃ rest, text = '|' :: rest ∧ level.branch = none) ∨
      ∃ inner back, text = '(' :: (inner ++ ')' :: back) ∧
        takeGroup 0 false (inner ++ ')' :: back) = some (inner, back) ∧
        parseWhole inner = .error .emptyAlternative := by
  cases stops with
  | read fails => exact absurd fails Lexeme.read_ne_emptyAlternative
  | @take c text rest lexeme _ reads fails =>
      cases Level.refuses_of_take fails with
      | bar empty =>
          obtain ⟨rfl, rfl⟩ := Lexeme.read_bar_eq reads
          exact .inl ⟨text, rfl, empty⟩
      | @inside inner _ refused =>
          obtain ⟨rfl, rfl, taken⟩ := Lexeme.read_group_eq reads
          exact .inr ⟨inner, rest, rfl, taken, refused⟩

/-- **A text is refused for want of an operand exactly if one is missing.** -/
theorem parseWhole_eq_emptyAlternative_iff (text : List Char) :
    parseWhole text = .error .emptyAlternative ↔ LacksOperand text := by
  refine ⟨fun refused => ?_, LacksOperand.parseWhole_eq⟩
  obtain ⟨front, rest, last, whole, reads, stops⟩ := exists_reads .start text
  subst whole
  rcases stops with rfl | ⟨e, stops⟩
  · rw [List.append_nil] at refused ⊢
    have incomplete := refused
    rw [parseWhole, reads.parseLevel_eq] at incomplete
    have empty : last.branch = none := by
      rw [Level.finish] at incomplete
      split at incomplete <;> simp_all
    rcases reads.readable_before_bar empty with all | ⟨before, carets, rfl, all, readable⟩
    · rw [Grammar.parseWhole_eq_ok_iff.mpr (.nothing all)] at refused
      cases refused
    · exact .outer (.last readable all)
  · rw [parseWhole, reads.parseLevel_append, stops.parseLevel_eq] at refused
    cases refused
    rcases stops.lacks_operand with ⟨rest, rfl, empty⟩ | ⟨inner, back, rfl, closes, refused⟩
    · rcases reads.readable_before_bar empty with all | ⟨before, carets, rfl, all, readable⟩
      · exact .outer (.first all rest)
      · have same : before ++ '|' :: carets ++ '|' :: rest =
            before ++ ('|' :: carets ++ '|' :: rest) := by simp
        rw [same]
        exact .between readable all rest
    · exact .inside reads closes ((parseWhole_eq_emptyAlternative_iff inner).mp refused)
termination_by text.length
decreasing_by
  subst_vars
  simp only [List.length_append, List.length_cons]
  omega

/-! ## What `.*` does at the ends -/

/-- The level after `.*`. -/
def Level.afterAnything : Level :=
  ⟨[], some ⟨none, .repeated (.atom (.any false)) .zeroOrMore⟩, false⟩

theorem Level.refusesOperators_start : Level.start.RefusesOperators :=
  fun b member => absurd member (Option.not_mem_none b)

theorem Level.refusesOperators_afterAnything : Level.afterAnything.RefusesOperators := by
  intro b member
  cases Option.mem_some_iff.mp member
  rfl

theorem Level.closed_start_iff : Level.start.closed = [] ↔ Level.afterAnything.closed = [] :=
  iff_of_true rfl rfl

theorem reads_anything : Reads .start anything .afterAnything :=
  .take rfl rfl (.take rfl rfl (.stop _))

theorem head?_ne_of_append_ne {front back : List Char} {c : Char}
    (other : (front ++ back).head? ≠ some c) : front.head? ≠ some c := by
  intro here
  rw [List.head?_append, here] at other
  exact other rfl

/-- Where a text can be read at the start, it can be read after `.*`. -/
theorem Reads.exists_afterAnything {text : List Char} {last : Level}
    (reads : Reads .start text last) (noCaret : text.head? ≠ some '^') :
    ∃ last', Reads .afterAnything text last' := by
  by_cases empty : text = []
  · subst empty
    exact ⟨_, .stop _⟩
  · have noBar : text.head? ≠ some '|' := by
      intro bar
      obtain ⟨rest, rfl⟩ := List.head?_eq_some_iff.mp bar
      cases reads with
      | take reads takes _ =>
          cases reads
          cases takes
    obtain ⟨last', reads', _⟩ := reads.alike_of_item Level.closed_start_iff
      Level.refusesOperators_start empty ⟨noBar, noCaret⟩
    exact ⟨last', reads'⟩

/-- Behind any level `.*` completes it. -/
theorem parseLevel_anything (level : Level) : ∃ e, parseLevel level anything = .ok e := by
  have dot : parseLevel level anything =
      parseLevel (level.pushAtom (.any false)) ['*'] := parseLevel_of_take rfl rfl
  have star : parseLevel (level.pushAtom (.any false)) ['*'] = parseLevel _ [] :=
    parseLevel_of_take rfl rfl
  rw [dot, star, parseLevel_nil]
  exact ⟨_, rfl⟩

/-- The pattern with both anchors. -/
def withBothAnchors (text : List Char) : List Char := '^' :: text ++ ['$']

section Anchors

variable {text : List Char} (complete : endsInEscape text = false)
include complete

theorem parse_withBothAnchors : parse (withBothAnchors text) = parseWhole text := by
  have reading : parse (caretIf true ++ text ++ dollarIf true) = parseWhole ([] ++ text ++ []) :=
    parse_anchors complete (.inl rfl) (.inl rfl)
  rwa [List.nil_append, List.append_nil] at reading

variable (noCaret : text.head? ≠ some '^') (noDollar : endsInAnchor text = false)
include noCaret noDollar

theorem parse_unanchored : parse text = parseLevel .afterAnything (text ++ anything) := by
  have reading : parse (caretIf false ++ text ++ dollarIf false) =
      parseWhole (anything ++ text ++ anything) :=
    parse_anchors complete (.inr noCaret) (.inr noDollar)
  rw [List.append_assoc anything, parseWhole, reads_anything.parseLevel_append] at reading
  simpa [caretIf, dollarIf] using reading

/-- What can be read after `.*` can be read at the start, unless an operand is missing. -/
theorem exists_parseWhole_of_parse (present : ¬LacksOuterOperand text)
    (parses : ∃ e, parse text = .ok e) : ∃ e, parseWhole text = .ok e := by
  by_cases empty : text = []
  · exact ⟨none, by rw [empty, parseWhole, parseLevel_nil]; rfl⟩
  obtain ⟨e, parses⟩ := parses
  rw [parse_unanchored complete noCaret noDollar] at parses
  obtain ⟨middle, reads⟩ := exists_reads_of_append (by decide) _ text complete parses
  have noBar : text.head? ≠ some '|' := by
    intro bar
    obtain ⟨rest, rfl⟩ := List.head?_eq_some_iff.mp bar
    exact present (.first (fun c member => absurd member List.not_mem_nil) rest)
  obtain ⟨last, reads, _⟩ := reads.alike_of_item Level.closed_start_iff.symm
    Level.refusesOperators_afterAnything empty ⟨noBar, noCaret⟩
  cases branch : last.branch with
  | some b => exact reads.exists_parseWhole (by rw [branch]; rfl)
  | none =>
      exfalso
      rcases reads.readable_before_bar branch with all | ⟨front, carets, rfl, all, readable⟩
      · cases text with
        | nil => exact empty rfl
        | cons c rest => exact noCaret (congrArg some (all c List.mem_cons_self))
      · exact present (.last readable all)

/-- What can be read at the start can be read after `.*`, and more may follow. -/
theorem exists_parse_of_parseWhole (parses : ∃ e, parseWhole text = .ok e) :
    ∃ e, parse text = .ok e := by
  obtain ⟨_, reads⟩ := exists_reads_of_parseWhole parses
  obtain ⟨last, reads⟩ := reads.exists_afterAnything noCaret
  rw [parse_unanchored complete noCaret noDollar, reads.parseLevel_append]
  exact parseLevel_anything last

/-- A missing operand is reported without anchors, unless it is missing at one of the ends. -/
theorem parse_eq_of_lacksOperand (lacks : LacksOperand text) (present : ¬LacksOuterOperand text) :
    parse text = .error .emptyAlternative := by
  rw [parse_unanchored complete noCaret noDollar]
  cases lacks with
  | outer lacks => exact absurd lacks present
  | @between front carets readable all back =>
      obtain ⟨_, reads⟩ := exists_reads_of_parseWhole readable
      obtain ⟨last, reads⟩ := reads.exists_afterAnything (head?_ne_of_append_ne noCaret)
      have same : front ++ ('|' :: carets ++ '|' :: back) ++ anything =
          front ++ ('|' :: carets ++ '|' :: (back ++ anything)) := by simp
      rw [same, reads.parseLevel_append]
      exact parseLevel_two_bars last all (back ++ anything)
  | @inside front inner back _ reads closes lacks =>
      obtain ⟨last, reads⟩ := reads.exists_afterAnything (head?_ne_of_append_ne noCaret)
      have same : front ++ '(' :: (inner ++ ')' :: back) ++ anything =
          front ++ '(' :: (inner ++ ')' :: (back ++ anything)) := by simp
      rw [same, reads.parseLevel_append]
      exact parseLevel_refused_group closes lacks.parseWhole_eq last (back ++ anything)

end Anchors

/-- **Anchors do not change whether a pattern can be read**, unless an operand at one of its ends is
missing.  With both anchors a missing operand is always reported, and without anchors it is
reported unless it is one at the ends.  A pattern that ends in a backslash that escapes nothing
cannot be read without anchors. -/
theorem parse_isOk_iff_anchored {text : List Char} (noCaret : text.head? ≠ some '^')
    (noDollar : endsInAnchor text = false) :
    (endsInEscape text = true → parse text = .error .trailingEscape) ∧
    (endsInEscape text = false →
      (¬LacksOuterOperand text →
        ((∃ e, parse text = .ok e) ↔ ∃ e, parse (withBothAnchors text) = .ok e)) ∧
      (LacksOperand text → parse (withBothAnchors text) = .error .emptyAlternative ∧
        (¬LacksOuterOperand text → parse text = .error .emptyAlternative))) := by
  constructor
  · intro incomplete
    rw [parse, if_pos incomplete]
  · intro complete
    rw [parse_withBothAnchors complete]
    constructor
    · intro present
      exact ⟨exists_parseWhole_of_parse complete noCaret noDollar present,
        exists_parse_of_parseWhole complete noCaret noDollar⟩
    · intro lacks
      exact ⟨lacks.parseWhole_eq, parse_eq_of_lacksOperand complete noCaret noDollar lacks⟩

/-- With the bar between two operands the pattern can be read either way, and with two bars
neither way. -/
theorem parse_isOk_iff_anchored_bars :
    ((∃ e, parse ['a', '|', 'b'] = .ok e) ↔
      ∃ e, parse (withBothAnchors ['a', '|', 'b']) = .ok e) ∧
    parse (withBothAnchors ['a', '|', '|', 'b']) = .error .emptyAlternative ∧
    parse ['a', '\\'] = .error .trailingEscape := by
  have single : parseWhole ['a'] = .ok (some (.atom (.char 'a' false))) := by cbv
  have lacks : LacksOperand ['a', '|', '|', 'b'] :=
    .between ⟨_, single⟩ (fun c member => absurd member List.not_mem_nil) ['b']
  have present : ¬LacksOuterOperand ['a', '|', 'b'] := by
    intro lacks
    have reads : parseWhole ['a', '|', 'b'] =
        .ok (some (.alt (.atom (.char 'a' false)) (.atom (.char 'b' false)))) := by
      cbv
    rw [lacks.parseWhole_eq] at reads
    cases reads
  exact ⟨((parse_isOk_iff_anchored (by decide) (by decide)).2 (by decide)).1 present,
    (((parse_isOk_iff_anchored (by decide) (by decide)).2 (by decide)).2 lacks).1,
    (parse_isOk_iff_anchored (by decide) (by decide)).1 (by decide)⟩

/-- Two patterns without anchors that cannot be read in the same way with both anchors.  Behind the
first one the dollar sign is escaped, and in the second one the bar has an operand
on its right only if something may follow. -/
theorem parse_ne_anchored :
    ((['a', '\\'] : List Char).head? ≠ some '^' ∧ endsInAnchor ['a', '\\'] = false ∧
      ¬((∃ e, parse ['a', '\\'] = .ok e) ↔ ∃ e, parse (withBothAnchors ['a', '\\']) = .ok e)) ∧
    ((['a', '|'] : List Char).head? ≠ some '^' ∧ endsInAnchor ['a', '|'] = false ∧
      ¬((∃ e, parse ['a', '|'] = .ok e) ↔ ∃ e, parse (withBothAnchors ['a', '|']) = .ok e)) := by
  refine ⟨⟨by decide, by decide, ?_⟩, by decide, by decide, ?_⟩
  · intro agree
    have refused : parse ['a', '\\'] = .error .trailingEscape := by cbv
    have reads : ∃ e, parse (withBothAnchors ['a', '\\']) = .ok e := ⟨_, by cbv⟩
    obtain ⟨e, reads⟩ := agree.mpr reads
    rw [refused] at reads
    cases reads
  · intro agree
    have refused : parse (withBothAnchors ['a', '|']) = .error .emptyAlternative := by cbv
    have reads : ∃ e, parse ['a', '|'] = .ok e := ⟨_, by cbv⟩
    obtain ⟨e, reads⟩ := agree.mp reads
    rw [refused] at reads
    cases reads

end RegexAutomaton.Pattern
