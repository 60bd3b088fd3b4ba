import RegexAutomaton.Proofs.Reading

/-!
# Trees are recovered from readings

Whatever can be read has a tree.  What has been read of a level is a list of branches
closed by bars, a branch that is still open, and carets (`Progress`).  Each lexeme
extends it by what the lexeme is written as (`Lexed`): a test or a group adds an item, an
operator replaces the last item, a bar closes the branch.  At the end of the text the
branches make up a tree, and the whole text is a loose text of it
(`Progress.readsAs_of_parseLevel`).

Together with the reading of texts of trees: the reader accepts exactly the loose texts
of admissible trees and the texts of carets only, and answers with the postfix sequence
of the tree (`parseWhole_postfix_iff`).
-/

set_option autoImplicit false

namespace RegexAutomaton.Grammar

open Passage (exactly carets)
open Pattern (parseLevel parseLevel_nil exists_take_of_parseLevel parseWhole takeBrackets
  takeBrackets_eq_append takeGroup takeGroup_eq_append Lexeme Level)

/-! ## How lexemes are written -/

/-- The text starts with the lexeme, and goes on with the rest. -/
inductive Lexed : List Char → Lexeme → List Char → Prop where
  | char {c : Char} {written : List Char} (writes : WritesChar c written) (rest : List Char) :
      Lexed (written ++ rest) (.atom (.char c false)) rest
  | any (rest : List Char) : Lexed (['.'] ++ rest) (.atom (.any false)) rest
  | brackets (contents : BracketText) (rest : List Char) :
      Lexed (contents.written ++ rest) (.atom (contents.atom false)) rest
  | group (inner rest : List Char) : Lexed (parenthesised inner ++ rest) (.group inner) rest
  | quantifier (q : Quantifier) (rest : List Char) :
      Lexed ([q.toChar] ++ rest) (.quantifier q) rest
  | bar (rest : List Char) : Lexed (['|'] ++ rest) .bar rest
  | caret (rest : List Char) : Lexed (['^'] ++ rest) .caret rest

theorem plain_of_takeBrackets {text contents rest : List Char}
    (taken : takeBrackets text = .ok (contents, rest)) :
    ∀ c ∈ contents, c ≠ ']' ∧ c ≠ '\\' := by
  induction text generalizing contents with
  | nil => cases taken
  | cons c text ih =>
      unfold takeBrackets at taken
      split at taken
      · cases taken
        simp
      · rename_i notClosing
        split at taken
        · cases taken
        · rename_i notEscape
          cases tail : takeBrackets text with
          | error e =>
              rw [tail] at taken
              cases taken
          | ok found =>
              rw [tail] at taken
              cases taken
              intro d member
              rcases List.mem_cons.mp member with rfl | member
              · exact ⟨notClosing, notEscape⟩
              · exact ih tail d member

/-- **A lexeme that is read is written at the start of the text.** -/
theorem lexed_of_read {c : Char} {text rest : List Char} {lexeme : Lexeme}
    (reads : Lexeme.read c text = .ok (lexeme, rest)) : Lexed (c :: text) lexeme rest := by
  unfold Lexeme.read at reads
  split at reads
  · split at reads
    · cases reads
    · cases reads
      exact .char .escaped rest
  · cases taken : takeBrackets text with
    | error e =>
        rw [taken] at reads
        cases reads
    | ok found =>
        rw [taken] at reads
        cases reads
        have lexed := Lexed.brackets ⟨found.1, plain_of_takeBrackets taken⟩ found.2
        rw [takeBrackets_eq_append taken]
        simpa [BracketText.written, BracketText.atom] using lexed
  · split at reads
    · cases reads
    · rename_i inner after taken
      cases reads
      rw [takeGroup_eq_append taken]
      simpa [parenthesised] using Lexed.group inner rest
  · cases reads
  · cases reads
    exact .caret text
  · cases reads
    exact .bar text
  · cases reads
    exact .any text
  · split at reads
    · rename_i q isOperator
      cases reads
      obtain rfl := Quantifier.ofChar?_eq_some_iff.mp isOperator
      exact .quantifier q text
    · rename_i notOperator
      cases reads
      refine .char (.plain ?_) text
      have notQuantifier : ∀ q, c ≠ Quantifier.toChar q := fun q same => by
        rw [same, Quantifier.ofChar?_toChar] at notOperator
        cases notOperator
      have := notQuantifier .oneOrMore
      have := notQuantifier .zeroOrMore
      have := notQuantifier .zeroOrOne
      simp_all [metacharacters, Quantifier.toChar]

/-- A lexeme is written with any lexical property that the text inside it has. -/
theorem Lexical.of_lexed {property : List Char → Prop} (lexical : Lexical property)
    {text rest : List Char} {lexeme : Lexeme} (lexed : Lexed text lexeme rest)
    (inside : ∀ inner, lexeme = .group inner → property inner) :
    ∃ front, text = front ++ rest ∧ property front := by
  cases lexed with
  | char writes => exact ⟨_, rfl, lexical.of_writesChar writes⟩
  | any => exact ⟨['.'], rfl, lexical.single '.' (by decide)⟩
  | brackets contents => exact ⟨_, rfl, lexical.brackets contents⟩
  | group inner => exact ⟨_, rfl, lexical.parenthesised (inside inner rfl)⟩
  | quantifier q => exact ⟨_, rfl, lexical.of_quantifier q⟩
  | bar => exact ⟨['|'], rfl, lexical.single '|' (by decide)⟩
  | caret => exact ⟨['^'], rfl, lexical.single '^' (by decide)⟩

/-! ## What has been read of a level -/

/-- The branches closed by bars, latest first, and the branch that is still open. -/
structure Progress where
  closed : List Branch
  branch : Option Branch

/-- The loose texts of closed branches, each with its bar. -/
def closedPassage : List Branch → Passage
  | [] => exactly []
  | branch :: earlier =>
      (closedPassage earlier).andThen (branch.passage.andThen (carets.andThen (exactly ['|'])))

/-- The loose texts of a branch that may have no item. -/
def openPassage : Option Branch → Passage
  | none => exactly []
  | some branch => branch.passage

namespace Progress

/-- The loose texts that end in the latest item or bar. -/
def written (progress : Progress) : Passage :=
  (closedPassage progress.closed).andThen (openPassage progress.branch)

/-- The loose texts, which may end in carets. -/
def passage (progress : Progress) : Passage := progress.written.andThen carets

/-- What the reader keeps. -/
def level (progress : Progress) (waiting : Bool) : Level :=
  ⟨progress.closed.map Branch.expr, progress.branch.map Branch.read, waiting⟩

/-- No operator has been applied to a base that ends in one. -/
def Admissible (progress : Progress) : Prop :=
  (∀ branch ∈ progress.closed, branch.RepeatsOnly fun base => ¬base.OperatorEnded) ∧
    ∀ branch ∈ progress.branch, branch.RepeatsOnly fun base => ¬base.OperatorEnded

/-- One more item in the open branch. -/
def push (progress : Progress) (item : Item) : Progress :=
  { progress with branch := some (progress.branch.elim (.one item) fun before =>
      .snoc before item) }

variable (progress : Progress)

theorem passage_of_written {waiting after : Bool} {text : List Char}
    (reads : progress.written waiting text after) : progress.passage waiting text after :=
  ⟨text, [], after, (List.append_nil text).symm, reads, Passage.carets_nil after⟩

/-- Carets may be followed by carets. -/
theorem passage_andThen_carets : progress.passage.andThen carets = progress.passage := by
  rw [passage, Passage.andThen_assoc, Passage.carets_andThen_carets]

theorem written_push (base : Base) :
    (progress.push (.once base)).written = progress.passage.andThen base.passage := by
  obtain ⟨closed, branch⟩ := progress
  cases branch <;> simp only [push, written, passage, openPassage, Option.elim, Branch.passage,
    Item.passage, Passage.andThen_assoc, Passage.exactly_nil_andThen]

theorem level_push (item : Item) (waiting after : Bool) :
    (progress.push item).level after =
      ⟨(progress.level waiting).closed,
        some (.push (progress.level waiting).branch item.expr), after⟩ := by
  obtain ⟨closed, branch⟩ := progress
  cases branch with
  | none => rfl
  | some before =>
      simp only [push, level, Option.elim, Option.map_some, Pattern.Branch.push, before.expr_read]
      rfl

theorem admissible_push (admissible : progress.Admissible) {item : Item}
    (itemAdmissible : item.RepeatsOnly fun base => ¬base.OperatorEnded) :
    (progress.push item).Admissible := by
  obtain ⟨closed, branch⟩ := progress
  refine ⟨admissible.1, ?_⟩
  intro added member
  obtain rfl := Option.mem_some_iff.mp member
  cases branch with
  | none => exact itemAdmissible
  | some before => exact ⟨admissible.2 before rfl, itemAdmissible⟩

/-- The open branch with an operator applied to its last item, which has none. -/
theorem written_push_repeated (base : Base) (q : Quantifier) :
    (progress.push (.repeated base q)).written =
      (progress.push (.once base)).passage.andThen (exactly [q.toChar]) := by
  obtain ⟨closed, branch⟩ := progress
  cases branch <;> simp only [push, written, passage, openPassage, Option.elim, Branch.passage,
    Item.passage, Passage.andThen_assoc]

/-- A bar closes the open branch. -/
theorem written_close (closed : List Branch) (branch : Branch) :
    (Progress.mk (branch :: closed) none).written =
      (Progress.mk closed (some branch)).passage.andThen (exactly ['|']) := by
  simp only [written, passage, closedPassage, openPassage, Passage.andThen_assoc,
    Passage.andThen_exactly_nil]

theorem exists_push (closed : List Branch) (branch : Branch) :
    ∃ before item, Progress.mk closed (some branch) = push before item := by
  cases branch with
  | one item => exact ⟨⟨closed, none⟩, item, rfl⟩
  | snoc before item => exact ⟨⟨closed, some before⟩, item, rfl⟩

theorem admissible_of_push {item : Item} (admissible : (progress.push item).Admissible) :
    progress.Admissible ∧ item.RepeatsOnly fun base => ¬base.OperatorEnded := by
  obtain ⟨closed, branch⟩ := progress
  cases branch with
  | none =>
      exact ⟨⟨admissible.1, fun b member => absurd member (Option.not_mem_none b)⟩,
        admissible.2 _ rfl⟩
  | some before =>
      obtain ⟨first, last⟩ := admissible.2 _ rfl
      refine ⟨⟨admissible.1, ?_⟩, last⟩
      intro b member
      obtain rfl := Option.mem_some_iff.mp member
      exact first

/-- **An operator that the reader allows applies to a last item without one.** -/
theorem repeatLast_cases {waiting : Bool} {q : Quantifier} {next : Level}
    (admissible : progress.Admissible)
    (repeats : (progress.level waiting).repeatLast q = .ok next) :
    ∃ (before : Progress) (base : Base), progress = before.push (.once base) ∧
      (before.push (.repeated base q)).Admissible ∧
      next = (before.push (.repeated base q)).level waiting := by
  obtain ⟨closed, branch⟩ := progress
  cases branch with
  | none => cases repeats
  | some branch =>
      obtain ⟨before, item, same⟩ := exists_push closed branch
      rw [same] at admissible repeats ⊢
      obtain ⟨beforeAdmissible, itemAdmissible⟩ := before.admissible_of_push admissible
      rw [before.level_push item waiting waiting, Level.repeatLast_push] at repeats
      cases item with
      | repeated base q => cases repeats
      | once base =>
          by_cases ended : base.expr.isRepeated = true
          · rw [Item.expr, if_pos ended] at repeats
            cases repeats
          · rw [Item.expr, if_neg ended] at repeats
            cases repeats
            refine ⟨before, base, rfl, before.admissible_push beforeAdmissible ?_, ?_⟩
            · exact ⟨fun h => ended (base.isRepeated_expr.mpr h), itemAdmissible⟩
            · rw [before.level_push _ waiting waiting, Item.expr]

end Progress

/-! ## The end of the text -/

/-- What a text asks for: nothing if it has carets only, and otherwise the expression of a tree. -/
inductive ReadsAs (text : List Char) : Option Expr → Prop where
  | nothing (all : ∀ c ∈ text, c = '^') : ReadsAs text none
  | tree (tree : Alternation) (admissible : tree.Admissible)
      (renders : tree.LooselyRenders text) : ReadsAs text (some tree.expr)

/-- The tree of closed branches, latest first, and of what comes after them. -/
def closeOver (closed : List Branch) (tree : Alternation) : Alternation :=
  closed.foldl (fun others branch => .more branch others) tree

theorem passage_closeOver (closed : List Branch) (tree : Alternation) :
    (closeOver closed tree).passage = (closedPassage closed).andThen tree.passage := by
  induction closed generalizing tree with
  | nil => exact (Passage.exactly_nil_andThen _).symm
  | cons branch earlier ih =>
      rw [closeOver, List.foldl_cons, ← closeOver, ih]
      simp only [closedPassage, Alternation.passage, Passage.andThen_assoc]

theorem expr_closeOver (closed : List Branch) (tree : Alternation) :
    (closeOver closed tree).expr =
      (closed.map Branch.expr).foldl (fun others e => .alt e others) tree.expr := by
  induction closed generalizing tree with
  | nil => rfl
  | cons branch earlier ih => exact ih (.more branch tree)

theorem admissible_closeOver {closed : List Branch} {tree : Alternation}
    (closedAdmissible : ∀ branch ∈ closed, branch.RepeatsOnly fun base => ¬base.OperatorEnded)
    (admissible : tree.Admissible) : (closeOver closed tree).Admissible := by
  induction closed generalizing tree with
  | nil => exact admissible
  | cons branch earlier ih =>
      refine ih (fun b hb => closedAdmissible b (List.mem_cons_of_mem branch hb)) ?_
      exact ⟨closedAdmissible branch List.mem_cons_self, admissible⟩

theorem Progress.readsAs_of_finish {progress : Progress} {waiting : Bool} {text : List Char}
    {result : Option Expr} (admissible : progress.Admissible)
    (reads : progress.passage false text waiting)
    (finishes : (progress.level waiting).finish = .ok result) : ReadsAs text result := by
  obtain ⟨closed, branch⟩ := progress
  cases branch with
  | none =>
      cases closed with
      | nil =>
          cases finishes
          simp only [passage, written, closedPassage, openPassage,
            Passage.exactly_nil_andThen] at reads
          exact .nothing reads.1
      | cons _ _ => cases finishes
  | some branch =>
      cases finishes
      rw [branch.expr_read]
      have same := expr_closeOver closed (.one branch)
      have := ReadsAs.tree (closeOver closed (.one branch))
        (admissible_closeOver admissible.1 (admissible.2 branch rfl))
        ⟨waiting, by
          rw [passage_closeOver]
          simpa only [passage, written, openPassage, Alternation.passage,
            Passage.andThen_assoc] using reads⟩
      rwa [same] at this

/-! ## Every reading -/

namespace Progress

/-- Nothing has been read. -/
def start : Progress := ⟨[], none⟩

theorem admissible_start : start.Admissible :=
  ⟨fun _ member => absurd member List.not_mem_nil,
    fun branch member => absurd member (Option.not_mem_none branch)⟩

theorem passage_start : start.passage false [] false :=
  passage_of_written start ⟨[], [], false, rfl, ⟨rfl, rfl⟩, rfl, rfl⟩

/-- The level holds progress that the text is written as. -/
def Reaches (front : List Char) (level : Level) : Prop :=
  ∃ (progress : Progress) (waiting : Bool), progress.Admissible ∧
    progress.passage false front waiting ∧ level = progress.level waiting

section Operations

variable {progress : Progress} {waiting : Bool} {front : List Char}
  (admissible : progress.Admissible) (reads : progress.passage false front waiting)
include admissible reads

/-- A base that is written next becomes the last item. -/
theorem reaches_push {base : Base} {written : List Char} {after : Bool}
    (here : base.passage waiting written after)
    (baseAdmissible : base.RepeatsOnly fun base => ¬base.OperatorEnded) :
    Reaches (front ++ written) ⟨(progress.level waiting).closed,
      some (.push (progress.level waiting).branch base.expr), after⟩ := by
  refine ⟨progress.push (.once base), after, progress.admissible_push admissible baseAdmissible,
    passage_of_written _ ?_, ?_⟩
  · rw [written_push]
    exact ⟨front, written, waiting, rfl, reads, here⟩
  · rw [progress.level_push _ waiting after, Item.expr]

theorem reaches_pushAtom {base : Base} {written : List Char} {a : Atom}
    (here : base.passage waiting written false)
    (baseAdmissible : base.RepeatsOnly fun base => ¬base.OperatorEnded)
    (same : base.expr = .atom (a.flipNegation waiting)) :
    Reaches (front ++ written) ((progress.level waiting).pushAtom a) := by
  have pushed := reaches_push admissible reads here baseAdmissible
  rw [same] at pushed
  exact pushed

theorem reaches_pushGroup {inner : List Char} {tree : Alternation}
    (treeAdmissible : tree.Admissible) (renders : tree.LooselyRenders inner) :
    Reaches (front ++ parenthesised inner) ((progress.level waiting).pushGroup tree.expr) := by
  obtain ⟨last, renders⟩ := renders
  have here : (Base.group tree).passage waiting (parenthesised inner) waiting :=
    ⟨⟨inner, last, rfl, renders⟩, rfl⟩
  exact reaches_push admissible reads here treeAdmissible

theorem reaches_repeatLast {q : Quantifier} {next : Level}
    (repeats : (progress.level waiting).repeatLast q = .ok next) :
    Reaches (front ++ [q.toChar]) next := by
  obtain ⟨before, base, rfl, repeatedAdmissible, rfl⟩ :=
    progress.repeatLast_cases admissible repeats
  refine ⟨before.push (.repeated base q), waiting, repeatedAdmissible,
    passage_of_written _ ?_, rfl⟩
  rw [written_push_repeated]
  exact ⟨front, [q.toChar], waiting, rfl, reads, rfl, rfl⟩

theorem reaches_closeBranch {next : Level}
    (closes : (progress.level waiting).closeBranch = .ok next) :
    Reaches (front ++ ['|']) next := by
  obtain ⟨closed, branch⟩ := progress
  cases branch with
  | none => cases closes
  | some branch =>
      cases closes
      refine ⟨⟨branch :: closed, none⟩, waiting, ⟨?_, ?_⟩, passage_of_written _ ?_, ?_⟩
      · intro b member
        rcases List.mem_cons.mp member with rfl | member
        · exact admissible.2 b rfl
        · exact admissible.1 b member
      · intro b member
        exact absurd member (Option.not_mem_none b)
      · rw [written_close]
        exact ⟨front, ['|'], waiting, rfl, reads, rfl, rfl⟩
      · rw [branch.expr_read]
        rfl

theorem reaches_awaitAtom : Reaches (front ++ ['^']) (progress.level waiting).awaitAtom := by
  refine ⟨progress, true, admissible, ?_, rfl⟩
  rw [← passage_andThen_carets]
  exact ⟨front, ['^'], waiting, rfl, reads, by simp, by simp⟩

/-- **A lexeme extends what has been read by what it is written as.**  The text of a group
has to be known to come from a tree. -/
theorem reaches_of_take {text rest : List Char} {lexeme : Lexeme} {next : Level}
    (lexed : Lexed text lexeme rest)
    (inner : ∀ result, parseWhole lexeme.inner = .ok result → ReadsAs lexeme.inner result)
    (takes : (progress.level waiting).take lexeme = .ok next) :
    ∃ written, text = written ++ rest ∧ Reaches (front ++ written) next := by
  cases lexed with
  | @char c written writes =>
      have here : (Base.char c waiting).passage waiting written false := ⟨writes, rfl, rfl⟩
      cases takes
      refine ⟨written, rfl, reaches_pushAtom admissible reads here trivial ?_⟩
      simp [Base.expr, Atom.flipNegation]
  | any =>
      have here : (Base.any waiting).passage waiting ['.'] false := ⟨rfl, rfl, rfl⟩
      cases takes
      refine ⟨['.'], rfl, reaches_pushAtom admissible reads here trivial ?_⟩
      simp [Base.expr, Atom.flipNegation]
  | brackets contents =>
      have here : (Base.brackets contents waiting).passage waiting contents.written false :=
        ⟨rfl, rfl, rfl⟩
      cases takes
      refine ⟨contents.written, rfl, reaches_pushAtom admissible reads here trivial ?_⟩
      simp [Base.expr, BracketText.atom]
  | group text =>
      simp only [Level.take] at takes
      cases read : parseWhole text with
      | error e =>
          rw [read] at takes
          cases takes
      | ok result =>
          rw [read] at takes
          cases inner result read with
          | nothing all => cases takes
          | tree tree treeAdmissible renders =>
              cases takes
              exact ⟨parenthesised text, rfl,
                reaches_pushGroup admissible reads treeAdmissible renders⟩
  | quantifier q => exact ⟨[q.toChar], rfl, reaches_repeatLast admissible reads takes⟩
  | bar => exact ⟨['|'], rfl, reaches_closeBranch admissible reads takes⟩
  | caret =>
      cases takes
      exact ⟨['^'], rfl, reaches_awaitAtom admissible reads⟩

end Operations

/-- **Reading on from progress along a text yields a tree of the whole text.** -/
theorem readsAs_of_parseLevel : ∀ (text : List Char) {progress : Progress} {waiting : Bool}
    {front : List Char} {result : Option Expr}, progress.Admissible →
    progress.passage false front waiting →
    parseLevel (progress.level waiting) text = .ok result → ReadsAs (front ++ text) result
  | [], progress, waiting, front, result, admissible, reads, parses => by
      rw [parseLevel_nil] at parses
      rw [List.append_nil]
      exact readsAs_of_finish admissible reads parses
  | c :: text, progress, waiting, front, result, admissible, reads, parses => by
      obtain ⟨lexeme, rest, next, read, takes, parses⟩ := exists_take_of_parseLevel parses
      have consumed := Lexeme.read_length read
      have inner : ∀ result, parseWhole lexeme.inner = .ok result →
          ReadsAs lexeme.inner result := fun result parses =>
        readsAs_of_parseLevel lexeme.inner admissible_start passage_start parses
      obtain ⟨written, whole, progress', waiting', admissible', reads', rfl⟩ :=
        reaches_of_take admissible reads (lexed_of_read read) inner takes
      rw [whole, ← List.append_assoc]
      exact readsAs_of_parseLevel rest admissible' reads' parses
termination_by text => text.length
decreasing_by
  all_goals
    simp only [List.length_cons]
    omega

end Progress

/-- **The reader answers exactly what a text asks for.** -/
theorem parseWhole_eq_ok_iff {text : List Char} {result : Option Expr} :
    parseWhole text = .ok result ↔ ReadsAs text result := by
  constructor
  · exact Progress.readsAs_of_parseLevel text Progress.admissible_start Progress.passage_start
  · intro reads
    cases reads with
    | nothing all =>
        have ended := parseLevel_carets all .start []
        rw [List.append_nil] at ended
        rw [parseWhole, ended, parseLevel_nil]
        rfl
    | tree tree admissible renders =>
        obtain ⟨_, renders⟩ := renders
        exact tree.parseLevel_passage admissible renders []

end RegexAutomaton.Grammar
