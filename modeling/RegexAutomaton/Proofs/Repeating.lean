import RegexAutomaton.Proofs.Recovery

/-!
# Groups before an operator

A text that can be read is balanced (`balanced_of_parseWhole`), so in parentheses it is found
again as the text of a group.  An operator behind the group applies to the group as a
whole.  It is refused if the expression of the group is itself a repetition
(`parseLevel_repeated_group`), which shows in the last token of the group's postfix sequence
(`parseWhole_repeated_group`).
-/

set_option autoImplicit false

namespace RegexAutomaton.Grammar

open Pattern (parseLevel parseWhole parseLevel_cons parseLevel_of_take parseLevel_nil Lexeme Level)

/-- **What can be read is balanced.** -/
theorem balanced_of_parseWhole {text : List Char} {result : Option Expr}
    (parses : parseWhole text = .ok result) : Balanced text := by
  cases parseWhole_eq_ok_iff.mp parses with
  | nothing all => exact lexical_balanced.of_all_caret all
  | tree tree _ renders =>
      obtain ⟨_, passage⟩ := renders
      exact tree.lexical_of_passage lexical_balanced passage

section Group

variable {inner : List Char} {e : Expr} (parses : parseWhole inner = .ok (some e))
include parses

/-- **A group is one item**, whatever it stands in and whatever follows it. -/
theorem parseLevel_group (level : Level) (rest : List Char) :
    parseLevel level (parenthesised inner ++ rest) = parseLevel (level.pushGroup e) rest := by
  have reads : Lexeme.read '(' (inner ++ ')' :: rest) = .ok (.group inner, rest) := by
    rw [Lexeme.read, (balanced_of_parseWhole parses).takeGroup_closing]
  have takes : level.take (.group inner) = .ok (level.pushGroup e) := by
    simp only [Level.take, parses]
  rw [parenthesised, List.cons_append, List.cons_append, List.append_assoc,
    List.singleton_append]
  exact parseLevel_of_take reads takes

/-- **An operator behind a group applies to the group as a whole**, unless the group is a
repetition. -/
theorem parseLevel_repeated_group (level : Level) (q : Quantifier) (rest : List Char) :
    parseLevel level (parenthesised inner ++ q.toChar :: rest) =
      if e.isRepeated then .error (.repeatedOperator q.toChar)
      else parseLevel (level.pushGroup (.repeated e q)) rest := by
  have repeats : (level.pushGroup e).take (.quantifier q) =
      if e.isRepeated then .error (.repeatedOperator q.toChar)
      else .ok (level.pushGroup (.repeated e q)) :=
    Level.repeatLast_push level.closed level.branch e level.caret q
  rw [parseLevel_group parses, parseLevel_cons, Lexeme.read_quantifier]
  simp only [repeats]
  cases e.isRepeated <;> rfl

end Group

/-- **A group followed by an operator.**  The postfix sequence is that of the group with the
operator behind it if the group's own sequence does not end in an operator.  If it does,
the operator is refused as one that follows another operator. -/
theorem parseWhole_repeated_group {inner : List Char} {tokens : List Token}
    (parses : (parseWhole inner).map Expr.postorderOf = .ok tokens) (nonempty : tokens ≠ [])
    (q : Quantifier) :
    (¬EndsInOperator tokens →
      (parseWhole (parenthesised inner ++ [q.toChar])).map Expr.postorderOf =
        .ok (tokens ++ [.quantifier q])) ∧
    (EndsInOperator tokens →
      (parseWhole (parenthesised inner ++ [q.toChar])).map Expr.postorderOf =
        .error (.repeatedOperator q.toChar)) := by
  cases read : parseWhole inner with
  | error reason =>
      rw [read] at parses
      cases parses
  | ok result =>
      rw [read] at parses
      cases parses
      cases result with
      | none => exact absurd rfl nonempty
      | some e =>
          have reading := parseLevel_repeated_group read .start q []
          rw [← parseWhole] at reading
          rw [Expr.postorderOf, endsInOperator_postorder_iff, reading]
          constructor
          · intro unrepeated
            rw [if_neg unrepeated, parseLevel_nil, ← Expr.postorder_repeated]
            rfl
          · intro isRepeated
            rw [if_pos isRepeated]
            rfl

theorem parseWhole_repeated_group_two_letters :
    (parseWhole (parenthesised ['a', 'b'] ++ ['*'])).map Expr.postorderOf =
      .ok [.atom (.char 'a' false), .atom (.char 'b' false), .cat, .quantifier .zeroOrMore] := by
  have parses : (parseWhole ['a', 'b']).map Expr.postorderOf =
      .ok [.atom (.char 'a' false), .atom (.char 'b' false), .cat] := by
    cbv
  refine (parseWhole_repeated_group parses (by simp) .zeroOrMore).1 ?_
  rintro ⟨q, ends⟩
  cases ends

/-- A group that ends in an operator is refused where the operator by itself would repeat it. -/
example : parseWhole (parenthesised ['a', '+'] ++ ['+']) = .error (.repeatedOperator '+') := by
  cbv

end RegexAutomaton.Grammar
