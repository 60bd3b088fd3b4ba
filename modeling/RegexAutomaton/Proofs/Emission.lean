import RegexAutomaton.Pattern.Builder
import RegexAutomaton.Proofs.Buffers
import RegexAutomaton.Proofs.Continuing
import RegexAutomaton.Proofs.Decoding
import RegexAutomaton.Regex

/-!
# The postfix form that is put out

A pattern is read as a tree (`Pattern.parse`), and its postfix form is put out without one
(`Pattern.postfixForm`).  Both take the pattern for the same expression.

**What has been put out.** The tree reader keeps the closed alternatives of a level and the one or
two parts of the open alternative.  What has been put out of the level is these trees written one
after the other, the open parts are the pending items, and the closed alternatives are the bars
(`Level.builder`).  Every lexeme keeps it so (`Level.take_builder`), and at the end of the level the
bars become the tokens that set the alternatives against one another (`Level.finish_builder`).
Hence the two readings give the same answer to every text, with the same error
(`postfixLevel_builder`, `postfixForm_eq_map`).

**Pieces are counted.** The stack machine makes a piece of each tree, so at every place of every
level what has been put out leaves a piece for each pending item and each bar, and there are never
more than two pending items (`Builder.Counted`, `Builder.Reads.counted`).

**Result.** The stack machine never runs short on what is put out of a pattern and is left with
one piece, or none if the postfix form is empty.  Nothing stops it, nor a run of the automaton
(`Regex.checked_of_postfixForm`).
-/

set_option autoImplicit false

namespace RegexAutomaton

namespace Expr

/-- Alternatives that group to the right are written one after the other, before the tokens that
set them against one another. -/
theorem postorder_foldl_alt (closed : List Expr) (e : Expr) :
    (closed.foldl (fun others e => .alt e others) e).postorder =
      written closed ++ e.postorder ++ List.replicate closed.length .alt := by
  induction closed generalizing e with
  | nil => simp [written]
  | cons first closed ih =>
      rw [List.foldl_cons, ih, postorder_alt]
      simp [written, List.replicate_succ]

/-- The last token tells whether the tree that was written last is a repetition. -/
theorem any_getLast?_append_postorder (front : List Token) (e : Expr) :
    (front ++ e.postorder).getLast?.any Token.isQuantifier = e.isRepeated := by
  rw [List.getLast?_append, List.getLast?_eq_some_getLast e.postorder_ne_nil, Option.some_or,
    Option.any_some, isQuantifier_getLast_postorder]

end Expr

namespace Pattern

/-! ## What has been put out of a level -/

/-- The items of an alternative that have not been joined, the latest first. -/
def Branch.items : Option Branch → List Expr
  | none => []
  | some b => b.last :: b.before.toList

/-- The trees of a level that have not been put together, the latest first. -/
def Level.trees (level : Level) : List Expr := Branch.items level.branch ++ level.closed

/-- What is kept of a level where its postfix form is put out. -/
def Level.builder (level : Level) : Builder where
  output := Expr.written level.trees
  pending := (Branch.items level.branch).length
  bars := level.closed.length
  caret := level.caret

namespace Level

theorem pushItem_builder (level : Level) (e : Expr) :
    level.builder.pushItem e.postorder = (level.pushGroup e).builder := by
  obtain ⟨closed, branch, caret⟩ := level
  cases branch with
  | none => rfl
  | some b =>
      obtain ⟨before, last⟩ := b
      cases before with
      | none => rfl
      | some items =>
          -- two items are pending, and they are joined first
          simp [builder, trees, Builder.pushItem, Builder.makeRoom, pushGroup, Branch.items,
            Branch.push, Branch.expr, Expr.written]

theorem pushAtom_builder (level : Level) (a : Atom) :
    level.builder.pushAtom a = (level.pushAtom a).builder :=
  pushItem_builder { level with caret := false } (.atom (a.flipNegation level.caret))

theorem pushOperator_builder (level : Level) (q : Quantifier) :
    level.builder.pushOperator q = (level.repeatLast q).map builder := by
  obtain ⟨closed, branch, caret⟩ := level
  cases branch with
  | none => rfl
  | some b =>
      have item : (builder ⟨closed, some b, caret⟩).pending ≠ 0 := Nat.succ_ne_zero _
      have ended : (builder ⟨closed, some b, caret⟩).output.getLast?.any Token.isQuantifier =
          b.last.isRepeated :=
        Expr.any_getLast?_append_postorder (Expr.written (b.before.toList ++ closed)) b.last
      have repeats : repeatLast ⟨closed, some b, caret⟩ q =
          if b.last.isRepeated then .error (.repeatedOperator q.toChar)
          else .ok ⟨closed, some { b with last := .repeated b.last q }, caret⟩ := rfl
      rw [Builder.pushOperator, if_neg item, ended, repeats]
      by_cases repeated : b.last.isRepeated = true
      · rw [if_pos repeated, if_pos repeated]
        rfl
      · rw [if_neg repeated, if_neg repeated]
        simp [builder, trees, Branch.items, Expr.written, Except.map]

theorem alternate_builder (level : Level) :
    level.builder.alternate = level.closeBranch.map builder := by
  obtain ⟨closed, branch, caret⟩ := level
  cases branch with
  | none => rfl
  | some b =>
      obtain ⟨before, last⟩ := b
      cases before <;>
        simp [builder, trees, Builder.alternate, closeBranch, Branch.items, Branch.expr,
          Expr.written, Except.map]

/-- **At the end of a level its postfix form has been put out.** -/
theorem finish_builder (level : Level) :
    level.builder.finish = level.finish.map Expr.postorderOf := by
  obtain ⟨closed, branch, caret⟩ := level
  cases branch with
  | none => cases closed <;> rfl
  | some b =>
      obtain ⟨before, last⟩ := b
      cases before <;>
        simp [builder, trees, Builder.finish, finish, Branch.items, Branch.expr, Expr.written,
          Expr.postorderOf, Expr.postorder_foldl_alt, Except.map]

end Level

/-! ## One lexeme at a time -/

/-- What one lexeme makes of what has been put out.  A group is read on its own first. -/
def Builder.take (b : Builder) : Lexeme → Except Malformed Builder
  | .atom a => .ok (b.pushAtom a)
  | .caret => .ok b.awaitAtom
  | .quantifier q => b.pushOperator q
  | .bar => b.alternate
  | .group inner =>
    match postfixWhole inner with
    | .error e => .error e
    | .ok tokens => if tokens.isEmpty then .error .emptyGroup else .ok (b.pushItem tokens)

theorem postfixLevel_nil (b : Builder) : postfixLevel b [] = b.finish := by
  rw [postfixLevel]

/-- **Putting out a level is taking one lexeme and going on.** -/
theorem postfixLevel_cons (b : Builder) (c : Char) (rest : List Char) :
    postfixLevel b (c :: rest) =
      match Lexeme.read c rest with
      | .error e => .error e
      | .ok (lexeme, after) =>
        match b.take lexeme with
        | .error e => .error e
        | .ok b => postfixLevel b after := by
  rw [postfixLevel]
  split <;> rename_i same <;> rw [same] <;> try rfl
  simp only [Builder.take, postfixWhole]
  cases postfixLevel .start _ with
  | error e => rfl
  | ok tokens => cases tokens <;> rfl

/-- **A lexeme does the same to both readings**, if they agree on the text of a group. -/
theorem Level.take_builder (level : Level) {lexeme : Lexeme}
    (inside : ∀ inner, lexeme = .group inner →
      postfixWhole inner = (parseWhole inner).map Expr.postorderOf) :
    level.builder.take lexeme = (level.take lexeme).map builder := by
  cases lexeme with
  | atom a => exact congrArg Except.ok (level.pushAtom_builder a)
  | caret => rfl
  | quantifier q => exact level.pushOperator_builder q
  | bar => exact level.alternate_builder
  | group inner =>
      rw [Builder.take, Level.take, inside inner rfl]
      cases parseWhole inner with
      | error e => rfl
      | ok result =>
          cases result with
          | none => rfl
          | some e =>
              have nonempty : ¬(Expr.postorderOf (some e)).isEmpty := by
                rw [List.isEmpty_iff, Expr.postorderOf_eq_nil_iff]
                exact Option.some_ne_none e
              simp only [Except.map, if_neg nonempty]
              exact congrArg Except.ok (level.pushItem_builder e)

/-! ## The two readings agree -/

/-- **What is put out of a level is the postfix form of its tree**, at any place of the level.
Where the text is refused both readings give the same reason. -/
theorem postfixLevel_builder (level : Level) (text : List Char) :
    postfixLevel level.builder text = (parseLevel level text).map Expr.postorderOf := by
  match text with
  | [] =>
      rw [postfixLevel_nil, parseLevel_nil]
      exact level.finish_builder
  | c :: text =>
      rw [postfixLevel_cons, parseLevel_cons]
      cases read : Lexeme.read c text with
      | error e => rfl
      | ok found =>
          obtain ⟨lexeme, rest⟩ := found
          have consumed := Lexeme.read_length read
          have inside : ∀ inner, lexeme = .group inner →
              postfixWhole inner = (parseWhole inner).map Expr.postorderOf := by
            rintro inner rfl
            exact postfixLevel_builder .start inner
          simp only [level.take_builder inside]
          cases level.take lexeme with
          | error e => rfl
          | ok next => exact postfixLevel_builder next rest
termination_by text.length
decreasing_by
  all_goals
    simp only [Lexeme.inner, List.length_cons] at consumed ⊢
    omega

theorem postfixWhole_eq_map (text : List Char) :
    postfixWhole text = (parseWhole text).map Expr.postorderOf :=
  postfixLevel_builder .start text

/-- **The postfix form of a pattern is that of its tree**, and where there is no tree there is no
postfix form, for the same reason. -/
theorem postfixForm_eq_map (text : List Char) :
    postfixForm text = (parse text).map Expr.postorderOf := by
  rw [postfixForm, parse, postfixWhole_eq_map]
  cases endsInEscape text <;> rfl

/-! ## Pieces are counted -/

namespace Builder

/-- What has been put out can be taken in by the stack machine, which is left with a piece for
each pending item and each bar.  At most two items are pending. -/
structure Counted (b : Builder) : Prop where
  pending : b.pending ≤ 2
  pieces : ∃ m, Assembly.start.run? b.output = some m ∧ m.stack.length = b.pending + b.bars

/-- The text is put out lexeme by lexeme, which leads from the first state to the last one. -/
inductive Reads : Builder → List Char → Builder → Prop where
  | stop (b : Builder) : Reads b [] b
  | take {b next last : Builder} {c : Char} {text rest : List Char} {lexeme : Lexeme}
      (reads : Lexeme.read c text = .ok (lexeme, rest)) (takes : b.take lexeme = .ok next)
      (more : Reads next rest last) : Reads b (c :: text) last

end Builder

theorem Branch.length_items_le (branch : Option Branch) : (items branch).length ≤ 2 := by
  cases branch with
  | none => exact Nat.zero_le 2
  | some b =>
      obtain ⟨before, last⟩ := b
      cases before with
      | none => exact Nat.le_succ 1
      | some items => exact le_rfl

theorem Level.counted_builder (level : Level) : level.builder.Counted where
  pending := Branch.length_items_le level.branch
  pieces := by
    have decodes := Expr.decode_eq_some_iff.mpr (rfl : level.builder.output = _)
    have runs := Assembly.run_eq_ok_iff.mpr ⟨level.trees, decodes, rfl⟩
    refine ⟨_, Assembly.run?_eq Assembly.coherent_start runs, ?_⟩
    rw [Assembly.length_ofTrees]
    exact List.length_append

theorem Level.exists_builder_of_take {level : Level} {lexeme : Lexeme} {next : Builder}
    (takes : level.builder.take lexeme = .ok next) :
    ∃ level', level.take lexeme = .ok level' ∧ next = level'.builder := by
  rw [level.take_builder fun inner _ => postfixWhole_eq_map inner] at takes
  cases taken : level.take lexeme with
  | error e =>
      rw [taken] at takes
      cases takes
  | ok level' =>
      rw [taken] at takes
      cases takes
      exact ⟨level', rfl, rfl⟩

/-- **Where a text is put out it is read**, and leads to what is kept of the level. -/
theorem Builder.Reads.exists_level {text : List Char} {level : Level} {last : Builder}
    (reads : Reads level.builder text last) :
    ∃ level', Pattern.Reads level text level' ∧ last = level'.builder := by
  generalize first : level.builder = b at reads
  induction reads generalizing level with
  | stop b => exact ⟨level, .stop level, first.symm⟩
  | take reads takes _ ih =>
      subst first
      obtain ⟨next, taken, rfl⟩ := Level.exists_builder_of_take takes
      obtain ⟨level', more, same⟩ := ih rfl
      exact ⟨level', .take reads taken more, same⟩

/-- **At every place of every level the pieces are counted.** -/
theorem Builder.Reads.counted {text : List Char} {b : Builder} (reads : Reads .start text b) :
    b.Counted := by
  have fromLevel : Reads Level.start.builder text b := reads
  obtain ⟨level, _, rfl⟩ := fromLevel.exists_level
  exact level.counted_builder

end Pattern

/-! ## Nothing stops a pattern -/

/-- The postfix form of an expression leaves one piece, and the empty sequence leaves none. -/
theorem Assembly.run_postorderOf (e : Option Expr) :
    ∃ m, start.run (Expr.postorderOf e) = .ok m ∧ m.stack.length ≤ 1 ∧
      (m.stack = [] ↔ Expr.postorderOf e = []) := by
  cases e with
  | none => exact ⟨start, rfl, Nat.zero_le 1, iff_of_true rfl rfl⟩
  | some e =>
      have runs := run_postorder e start []
      rw [List.append_nil] at runs
      exact ⟨_, runs, le_rfl, iff_of_false (List.cons_ne_nil _ _) e.postorder_ne_nil⟩

namespace Regex

/-- **The postfix form of a compiled pattern is what is put out of its text.** -/
theorem postfixForm_source (r : Regex) : Pattern.postfixForm r.source.toList = .ok r.tokens := by
  rw [Pattern.postfixForm_eq_map, r.parse_source]
  rfl

/-- A pattern of which a postfix form is put out is compiled, and has this postfix form. -/
theorem exists_compile_of_postfixForm {pattern : String} {tokens : List Token}
    (putOut : Pattern.postfixForm pattern.toList = .ok tokens) :
    ∃ r, compile pattern = .ok r ∧ r.tokens = tokens := by
  cases compiled : compile pattern with
  | error reason =>
      rw [Pattern.postfixForm_eq_map, compile_eq_error_iff.mp compiled] at putOut
      cases putOut
  | ok r =>
      have same := r.postfixForm_source
      rw [source_of_compile compiled, putOut] at same
      exact ⟨r, rfl, (Except.ok.inj same).symm⟩

/-- **Nothing stops what is put out of a pattern.**  The stack machine takes in the whole postfix
form, so that no operand is missing and every arrow that is led on names an edge, and it is left
with one piece, or with none if the postfix form is empty.  What it finishes is the automaton of
the pattern.  That automaton is wired, and running it over a subject gives the answer. -/
theorem checked_of_postfixForm {pattern : String} {tokens : List Token}
    (putOut : Pattern.postfixForm pattern.toList = .ok tokens) (subject : String) :
    ∃ (m : Assembly) (r : Regex), Assembly.start.run? tokens = some m ∧
      m.stack.length ≤ 1 ∧ (m.stack = [] ↔ tokens = []) ∧
      m.finish? = some r.nfa ∧ r.nfa.Wired ∧
      r.nfa.run? subject.toList = some (r.isMatch subject) ∧
      compile pattern = .ok r ∧ r.tokens = tokens := by
  obtain ⟨r, compiled, rfl⟩ := exists_compile_of_postfixForm putOut
  have builds := r.ofPostfix_tokens
  have wired := Nfa.wired_ofPostfix builds
  obtain ⟨m, runs, length, empty⟩ := Assembly.run_postorderOf r.expr
  have finishes : m.finish = .ok r.nfa := by
    rwa [Nfa.ofPostfix, tokens, runs] at builds
  have coherent := Assembly.coherent_start.run runs
  exact ⟨m, r, Assembly.run?_eq Assembly.coherent_start runs, length, empty,
    Assembly.finish?_eq coherent finishes, wired, Nfa.run?_eq wired subject.toList, compiled, rfl⟩

/-- Three items on the outer level, one of them a group with two alternatives. -/
theorem checked_of_postfixForm_group :
    ∃ (m : Assembly) (r : Regex),
      Assembly.start.run? [.atom (.char 'a' false), .atom (.char 'b' false),
        .atom (.char 'c' false), .cat, .atom (.char 'd' false), .alt, .quantifier .oneOrMore, .cat,
        .atom (.char 'e' false), .cat] = some m ∧
      m.stack.length ≤ 1 ∧
      (m.stack = [] ↔ [Token.atom (.char 'a' false), .atom (.char 'b' false),
        .atom (.char 'c' false), .cat, .atom (.char 'd' false), .alt, .quantifier .oneOrMore, .cat,
        .atom (.char 'e' false), .cat] = []) ∧
      m.finish? = some r.nfa ∧ r.nfa.Wired ∧
      r.nfa.run? "abcde".toList = some (r.isMatch "abcde") ∧
      compile "^a(bc|d)+e$" = .ok r ∧
      r.tokens = [.atom (.char 'a' false), .atom (.char 'b' false), .atom (.char 'c' false), .cat,
        .atom (.char 'd' false), .alt, .quantifier .oneOrMore, .cat, .atom (.char 'e' false),
        .cat] := by
  have putOut : Pattern.postfixForm "^a(bc|d)+e$".toList =
      .ok [.atom (.char 'a' false), .atom (.char 'b' false), .atom (.char 'c' false), .cat,
        .atom (.char 'd' false), .alt, .quantifier .oneOrMore, .cat, .atom (.char 'e' false),
        .cat] := by
    cbv
  exact checked_of_postfixForm putOut "abcde"

end Regex

end RegexAutomaton
