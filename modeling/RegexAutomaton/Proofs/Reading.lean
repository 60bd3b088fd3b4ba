import RegexAutomaton.Pattern.Parse
import RegexAutomaton.Proofs.Grouping

/-!
# Texts of trees are read

Reading a level takes one lexeme after the other: `Level.take` says what a lexeme does to
the level, and reading a level is taking its first lexeme and reading on
(`parseLevel_cons`).

A loose text of an admissible tree is read as the expression of the tree
(`Alternation.parseLevel_passage`).  For a group this needs that its text is found again by
counting parentheses.  Every text of a tree is balanced (`Balanced`), so the search for
the closing parenthesis passes over it.
-/

set_option autoImplicit false

namespace RegexAutomaton

/-! ## One lexeme at a time -/

namespace Pattern

/-- What one lexeme makes of a level.  A group is read on its own first. -/
def Level.take (level : Level) : Lexeme → Except Malformed Level
  | .atom a => .ok (level.pushAtom a)
  | .caret => .ok level.awaitAtom
  | .quantifier q => level.repeatLast q
  | .bar => level.closeBranch
  | .group inner =>
    match parseWhole inner with
    | .error e => .error e
    | .ok none => .error .emptyGroup
    | .ok (some e) => .ok (level.pushGroup e)

theorem parseLevel_nil (level : Level) : parseLevel level [] = level.finish := by
  rw [parseLevel]

/-- **Reading a level is taking one lexeme and reading on.** -/
theorem parseLevel_cons (level : Level) (c : Char) (rest : List Char) :
    parseLevel level (c :: rest) =
      match Lexeme.read c rest with
      | .error e => .error e
      | .ok (lexeme, after) =>
        match level.take lexeme with
        | .error e => .error e
        | .ok level => parseLevel level after := by
  rw [parseLevel]
  split <;> rename_i same <;> rw [same] <;> try rfl
  simp only [Level.take, parseWhole]
  cases parseLevel .start _ with
  | error e => rfl
  | ok e => cases e <;> rfl

theorem parseLevel_of_take {level next : Level} {c : Char} {rest after : List Char}
    {lexeme : Lexeme} (reads : Lexeme.read c rest = .ok (lexeme, after))
    (takes : level.take lexeme = .ok next) :
    parseLevel level (c :: rest) = parseLevel next after := by
  rw [parseLevel_cons, reads]
  simp only [takes]

/-- Where a text is read whole, its first lexeme is read and taken. -/
theorem exists_take_of_parseLevel {level : Level} {c : Char} {text : List Char}
    {result : Option Expr} (parses : parseLevel level (c :: text) = .ok result) :
    ∃ lexeme rest next, Lexeme.read c text = .ok (lexeme, rest) ∧ level.take lexeme = .ok next ∧
      parseLevel next rest = .ok result := by
  rw [parseLevel_cons] at parses
  split at parses
  · cases parses
  · rename_i lexeme rest reads
    split at parses
    · cases parses
    · rename_i next takes
      exact ⟨lexeme, rest, next, reads, takes, parses⟩

theorem Level.repeatLast_push (closed : List Expr) (branch : Option Branch) (item : Expr)
    (waiting : Bool) (q : Quantifier) :
    repeatLast ⟨closed, some (.push branch item), waiting⟩ q =
      if item.isRepeated then .error (.repeatedOperator q.toChar)
      else .ok ⟨closed, some (.push branch (.repeated item q)), waiting⟩ := rfl

theorem Lexeme.read_ordinary {c : Char} (ordinary : c ∉ Grammar.metacharacters)
    (rest : List Char) : Lexeme.read c rest = .ok (.atom (.char c false), rest) := by
  simp only [Grammar.metacharacters, List.mem_cons, List.not_mem_nil, or_false,
    not_or] at ordinary
  unfold Lexeme.read
  split <;> simp_all [Quantifier.ofChar?]

theorem Lexeme.read_quantifier (q : Quantifier) (rest : List Char) :
    Lexeme.read q.toChar rest = .ok (.quantifier q, rest) := by
  cases q <;> rfl

theorem takeBrackets_append (contents : Grammar.BracketText) (rest : List Char) :
    takeBrackets (contents.text ++ ']' :: rest) = .ok (contents.text, rest) := by
  obtain ⟨text, plain⟩ := contents
  induction text with
  | nil => rfl
  | cons c text ih =>
      obtain ⟨notClosing, notEscape⟩ := plain c List.mem_cons_self
      have tail := ih fun d hd => plain d (List.mem_cons_of_mem c hd)
      simp only at tail
      simp only [List.cons_append, takeBrackets, if_neg notClosing, if_neg notEscape, tail]
      rfl

end Pattern

namespace Grammar

open Pattern (parseLevel parseLevel_nil parseLevel_cons parseLevel_of_take parseWhole
  takeBrackets_append takeGroup takeGroup_eq_append Lexeme Level)

/-! ## Texts of trees are read -/

theorem parseLevel_carets {text : List Char} (all : ∀ c ∈ text, c = '^') (level : Level)
    (rest : List Char) : parseLevel level (text ++ rest) =
      parseLevel { level with caret := level.caret || !text.isEmpty } rest := by
  induction text generalizing level with
  | nil => simp
  | cons c text ih =>
      obtain rfl := all c List.mem_cons_self
      have step : parseLevel level ('^' :: (text ++ rest)) =
          parseLevel level.awaitAtom (text ++ rest) := parseLevel_of_take rfl rfl
      rw [List.cons_append, step, ih fun d hd => all d (List.mem_cons_of_mem _ hd)]
      simp [Level.awaitAtom]

/-- What the reader keeps of a branch. -/
def Branch.read : Branch → Pattern.Branch
  | .one item => ⟨none, item.expr⟩
  | .snoc before item => ⟨some before.expr, item.expr⟩

theorem Branch.expr_read (branch : Branch) : branch.read.expr = branch.expr := by
  cases branch <;> rfl

mutual
theorem Alternation.parseLevel_passage : ∀ (tree : Alternation) {waiting after : Bool}
    {text : List Char}, tree.Admissible → tree.passage waiting text after →
    ∀ closed : List Expr, parseLevel ⟨closed, none, waiting⟩ text =
      .ok (some (closed.foldl (fun others e => .alt e others) tree.expr))
  | .one branch, waiting, after, _, admissible, ⟨front, carets, between, rfl, first, all, _⟩,
      closed => by
      have ended := parseLevel_carets all ⟨closed, some branch.read, between⟩ []
      rw [List.append_nil] at ended
      rw [branch.parseLevel_passage admissible first, ended, parseLevel_nil, Level.finish]
      simp only [branch.expr_read, Alternation.expr]
  | .more branch others, waiting, after, _, ⟨admissible, othersAdmissible⟩,
      ⟨_, back, _, rfl, ⟨_, _, _, rfl, first, _, _, _, rfl, ⟨all, rfl⟩, rfl, rfl⟩, rest⟩,
      closed => by
      have bar : ∀ caret, parseLevel ⟨closed, some branch.read, caret⟩ ('|' :: back) =
          parseLevel ⟨branch.expr :: closed, none, caret⟩ back := fun caret =>
        parseLevel_of_take rfl (by simp only [Level.take, Level.closeBranch, branch.expr_read])
      rw [List.append_assoc, branch.parseLevel_passage admissible first, List.append_assoc,
        parseLevel_carets all, List.singleton_append, bar,
        others.parseLevel_passage othersAdmissible rest, Alternation.expr]
      rfl

theorem Branch.parseLevel_passage : ∀ (branch : Branch) {waiting after : Bool}
    {text : List Char}, branch.RepeatsOnly (fun base => ¬base.OperatorEnded) →
    branch.passage waiting text after → ∀ (closed : List Expr) (rest : List Char),
      parseLevel ⟨closed, none, waiting⟩ (text ++ rest) =
        parseLevel ⟨closed, some branch.read, after⟩ rest
  | .one item, _, _, _, admissible, reads, closed, rest =>
      item.parseLevel_passage admissible reads closed none rest
  | .snoc before item, _, _, _, ⟨admissible, lastAdmissible⟩, ⟨_, _, _, rfl, first, last⟩,
      closed, rest => by
      rw [List.append_assoc, before.parseLevel_passage admissible first,
        item.parseLevel_passage lastAdmissible last, Pattern.Branch.push, Option.map_some,
        before.expr_read, Branch.read]

theorem Item.parseLevel_passage : ∀ (item : Item) {waiting after : Bool}
    {text : List Char}, item.RepeatsOnly (fun base => ¬base.OperatorEnded) →
    item.passage waiting text after →
    ∀ (closed : List Expr) (branch : Option Pattern.Branch) (rest : List Char),
      parseLevel ⟨closed, branch, waiting⟩ (text ++ rest) =
        parseLevel ⟨closed, some (Pattern.Branch.push branch item.expr), after⟩ rest
  | .once base, _, _, _, admissible, ⟨_, _, _, rfl, ⟨all, rfl⟩, reads⟩, closed, branch, rest => by
      rw [List.append_assoc, parseLevel_carets all]
      exact base.parseLevel_passage admissible reads closed branch rest
  | .repeated base q, _, _, _, ⟨allowed, admissible⟩,
      ⟨_, _, _, rfl, ⟨_, _, _, rfl, ⟨all, rfl⟩, reads⟩, _, _, _, rfl, ⟨all', rfl⟩, rfl, rfl⟩,
      closed, branch, rest => by
      have notRepeated : base.expr.isRepeated = false := by
        rw [Bool.eq_false_iff, ne_eq, base.isRepeated_expr]
        exact allowed
      rw [List.append_assoc, List.append_assoc, parseLevel_carets all,
        base.parseLevel_passage admissible reads, List.append_assoc, parseLevel_carets all']
      refine parseLevel_of_take (Pattern.Lexeme.read_quantifier q rest) ?_
      rw [Level.take, Level.repeatLast_push, notRepeated]
      rfl

theorem Base.parseLevel_passage : ∀ (base : Base) {waiting after : Bool}
    {text : List Char}, base.RepeatsOnly (fun base => ¬base.OperatorEnded) →
    base.passage waiting text after →
    ∀ (closed : List Expr) (branch : Option Pattern.Branch) (rest : List Char),
      parseLevel ⟨closed, branch, waiting⟩ (text ++ rest) =
        parseLevel ⟨closed, some (Pattern.Branch.push branch base.expr), after⟩ rest
  | .char c _, waiting, _, _, _, ⟨writes, rfl, rfl⟩, closed, branch, rest => by
      have takes : Level.take ⟨closed, branch, waiting⟩ (.atom (.char c false)) =
          .ok ⟨closed, some (.push branch (.atom (.char c waiting))), false⟩ := by
        simp [Level.take, Level.pushAtom, Atom.flipNegation]
      cases writes with
      | escaped => exact parseLevel_of_take rfl takes
      | plain ordinary => exact parseLevel_of_take (Lexeme.read_ordinary ordinary rest) takes
  | .any _, waiting, _, _, _, ⟨rfl, rfl, rfl⟩, closed, branch, rest => by
      apply parseLevel_of_take rfl
      simp [Level.take, Level.pushAtom, Atom.flipNegation, Base.expr]
  | .brackets contents _, waiting, _, _, _, ⟨rfl, rfl, rfl⟩, closed, branch, rest => by
      have reads : Lexeme.read '[' (contents.text ++ ']' :: rest) =
          .ok (.atom (.within (Pattern.Bracket.toClass contents.text)), rest) := by
        rw [Lexeme.read, takeBrackets_append]
        rfl
      rw [BracketText.written, List.cons_append, List.cons_append, List.append_assoc,
        List.singleton_append]
      exact parseLevel_of_take reads rfl
  | .group inner, _, _, _, admissible, ⟨⟨written, last, rfl, passage⟩, rfl⟩, closed, branch,
      rest => by
      have balanced := inner.lexical_of_passage lexical_balanced passage
      have reads : Lexeme.read '(' (written ++ ')' :: rest) = .ok (.group written, rest) := by
        rw [Lexeme.read, balanced.takeGroup_closing]
      have read : parseWhole written = .ok (some inner.expr) :=
        inner.parseLevel_passage admissible passage []
      rw [parenthesised, List.cons_append, List.cons_append, List.append_assoc,
        List.singleton_append]
      apply parseLevel_of_take reads
      simp only [Level.take, read]
      rfl
end

end Grammar

end RegexAutomaton
