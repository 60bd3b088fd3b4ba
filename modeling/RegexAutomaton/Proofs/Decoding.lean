import RegexAutomaton.Proofs.Checked

/-!
# Postfix sequences are uniquely readable

A postfix sequence is read back with a stack of trees: an atom is a new tree, and every other
token makes one tree of those on top (`Expr.combine`, `Expr.decode`).  Reading back is the
inverse of writing the trees of a stack one after the other (`Expr.decode_eq_some_iff`), so a
sequence has at most one tree (`Expr.postorder_injective`).

**How reading back fails.** It fails at the first token that meets fewer trees than it takes
(`Expr.decode_eq_none_iff`).  How many trees it meets is told by counting: the tokens before it
leave as many as they have atoms, less the tokens that make one tree of two
(`Expr.length_decode`).

**Result.** The stack machine that builds automata follows the reading back: it has a piece
for each tree and fails where no tree can be made (`Assembly.run_ofTrees`).  That tells which
sequences build an automaton and why the others do not (`Nfa.ofPostfix_outcomes`).
-/

set_option autoImplicit false

namespace RegexAutomaton

/-! ## Trees read back -/

namespace Expr

/-- Takes in one token: trees come off the stack, the combined tree goes on it. -/
def combine (t : Token) (stack : List Expr) : Option (List Expr) :=
  match t, stack with
  | .atom a, stack => some (.atom a :: stack)
  | .quantifier q, body :: stack => some (.repeated body q :: stack)
  | .cat, right :: left :: stack => some (.cat left right :: stack)
  | .alt, right :: left :: stack => some (.alt left right :: stack)
  | _, _ => none

/-- The trees on the stack after a sequence of tokens, the latest first. -/
def decode (stack : List Expr) (tokens : List Token) : Option (List Expr) :=
  tokens.foldlM (fun stack t => combine t stack) stack

/-- The postfix sequences of the trees on a stack, the latest last. -/
def written : List Expr → List Token
  | [] => []
  | e :: earlier => written earlier ++ e.postorder

@[simp] theorem decode_nil (stack : List Expr) : decode stack [] = some stack := rfl

theorem decode_cons (stack : List Expr) (t : Token) (rest : List Token) :
    decode stack (t :: rest) = (combine t stack).bind fun stack => decode stack rest := rfl

/-- **Reading back the postfix form of a tree puts the tree on the stack**, whatever follows in
the sequence. -/
theorem decode_postorder (e : Expr) (stack : List Expr) (rest : List Token) :
    decode stack (e.postorder ++ rest) = decode (e :: stack) rest := by
  induction e generalizing stack rest with
  | atom a => rfl
  | repeated body q ih => simp [ih, decode_cons, combine]
  | cat left right ihl ihr => simp [ihl, ihr, decode_cons, combine]
  | alt left right ihl ihr => simp [ihl, ihr, decode_cons, combine]

theorem decode_written (stack : List Expr) (rest : List Token) :
    decode [] (written stack ++ rest) = decode stack rest := by
  induction stack generalizing rest with
  | nil => rfl
  | cons e earlier ih => rw [written, List.append_assoc, ih, decode_postorder]

/-- A token that is taken in is written behind the trees. -/
theorem written_combine {t : Token} {stack next : List Expr}
    (combines : combine t stack = some next) : written next = written stack ++ [t] := by
  cases t with
  | atom a =>
      cases combines
      rfl
  | quantifier q =>
      rcases stack with _ | ⟨body, stack⟩ <;> cases combines
      simp [written]
  | cat =>
      rcases stack with _ | ⟨right, _ | ⟨left, stack⟩⟩ <;> cases combines
      simp [written]
  | alt =>
      rcases stack with _ | ⟨right, _ | ⟨left, stack⟩⟩ <;> cases combines
      simp [written]

theorem written_decode {tokens : List Token} {stack last : List Expr}
    (decodes : decode stack tokens = some last) : written last = written stack ++ tokens := by
  induction tokens generalizing stack with
  | nil =>
      cases decodes
      rw [List.append_nil]
  | cons t rest ih =>
      rw [decode_cons] at decodes
      obtain ⟨next, combines, decodes⟩ := Option.bind_eq_some_iff.mp decodes
      rw [ih decodes, written_combine combines, List.append_assoc, List.singleton_append]

/-- **Reading back is the inverse of writing.** -/
theorem decode_eq_some_iff {tokens : List Token} {stack : List Expr} :
    decode [] tokens = some stack ↔ tokens = written stack := by
  constructor
  · intro decodes
    exact (written_decode decodes).symm
  · rintro rfl
    have decodes := decode_written stack []
    rwa [List.append_nil] at decodes

/-- **A sequence is the postfix form of at most one tree.** -/
theorem postorder_injective : Function.Injective postorder := by
  intro e e' same
  have first : decode [] e.postorder = some [e] := decode_eq_some_iff.mpr rfl
  have second : decode [] e'.postorder = some [e'] := decode_eq_some_iff.mpr rfl
  rw [same, second] at first
  cases first
  rfl

end Expr

/-! ## Counting -/

namespace Token

/-- How many operands the token takes. -/
def operands : Token → Nat
  | .atom _ => 0
  | .quantifier _ => 1
  | .cat => 2
  | .alt => 2

/-- Tells whether the token is an atom. -/
def isAtom : Token → Bool
  | .atom _ => true
  | _ => false

/-- The number of atoms, less the number of tokens that make one operand of two. -/
def balance (tokens : List Token) : Int :=
  tokens.countP isAtom - tokens.count .cat - tokens.count .alt

@[simp] theorem balance_nil : balance [] = 0 := rfl

/-- Every token leaves one operand in place of those that it takes. -/
theorem balance_cons (t : Token) (rest : List Token) :
    balance (t :: rest) = 1 - t.operands + balance rest := by
  simp only [balance, List.countP_cons, List.count_cons]
  cases t <;> simp [operands, isAtom] <;> omega

end Token

namespace Expr

open Token (balance)

/-- **A token finds its operands, or there are too few.** -/
theorem combine_cases (t : Token) (stack : List Expr) :
    (combine t stack = none ∧ stack.length < t.operands) ∨
      ∃ next, combine t stack = some next ∧ t.operands ≤ stack.length ∧
        next.length + t.operands = stack.length + 1 := by
  cases t with
  | atom a => exact .inr ⟨_, rfl, Nat.zero_le _, rfl⟩
  | quantifier q =>
      rcases stack with _ | ⟨body, stack⟩
      · exact .inl ⟨rfl, Nat.zero_lt_one⟩
      · exact .inr ⟨_, rfl, Nat.le_add_left 1 _, rfl⟩
  | cat =>
      rcases stack with _ | ⟨right, _ | ⟨left, stack⟩⟩
      · exact .inl ⟨rfl, Nat.zero_lt_two⟩
      · exact .inl ⟨rfl, Nat.one_lt_two⟩
      · exact .inr ⟨_, rfl, Nat.le_add_left 2 _, rfl⟩
  | alt =>
      rcases stack with _ | ⟨right, _ | ⟨left, stack⟩⟩
      · exact .inl ⟨rfl, Nat.zero_lt_two⟩
      · exact .inl ⟨rfl, Nat.one_lt_two⟩
      · exact .inr ⟨_, rfl, Nat.le_add_left 2 _, rfl⟩

theorem length_decode {tokens : List Token} {stack last : List Expr}
    (decodes : decode stack tokens = some last) :
    (last.length : Int) = stack.length + balance tokens := by
  induction tokens generalizing stack with
  | nil =>
      cases decodes
      simp
  | cons t rest ih =>
      rw [decode_cons] at decodes
      rcases combine_cases t stack with ⟨short, _⟩ | ⟨next, combines, _, length⟩
      · rw [short] at decodes
        cases decodes
      · rw [combines, Option.bind_some] at decodes
        rw [ih decodes, Token.balance_cons]
        omega

/-- **Reading back fails exactly if some token meets fewer trees than it takes.** -/
theorem decode_eq_none_iff {tokens : List Token} {stack : List Expr} :
    decode stack tokens = none ↔ ∃ front t back trees, tokens = front ++ t :: back ∧
      decode stack front = some trees ∧ trees.length < t.operands := by
  induction tokens generalizing stack with
  | nil => simp
  | cons t rest ih =>
      rw [decode_cons]
      rcases combine_cases t stack with ⟨short, few⟩ | ⟨next, combines, enough, _⟩
      · rw [short]
        exact iff_of_true rfl ⟨[], t, rest, stack, rfl, rfl, few⟩
      · rw [combines, Option.bind_some, ih]
        constructor
        · rintro ⟨front, s, back, trees, rfl, decodes, few⟩
          refine ⟨t :: front, s, back, trees, rfl, ?_, few⟩
          rwa [decode_cons, combines, Option.bind_some]
        · rintro ⟨front, s, back, trees, whole, decodes, few⟩
          cases front with
          | nil =>
              obtain ⟨rfl, rfl⟩ := List.cons.inj whole
              cases decodes
              omega
          | cons t' front =>
              obtain ⟨rfl, rfl⟩ := List.cons.inj whole
              rw [decode_cons, combines, Option.bind_some] at decodes
              exact ⟨front, s, back, trees, rfl, decodes, few⟩

end Expr

/-! ## The stack machine follows the trees -/

namespace Assembly

/-- What the machine has built when the trees have been read, the latest first. -/
def ofTrees : List Expr → Assembly
  | [] => start
  | e :: earlier => push (ofTrees earlier).stack (e.assemble (ofTrees earlier).states)

theorem length_ofTrees (trees : List Expr) : (ofTrees trees).stack.length = trees.length := by
  induction trees with
  | nil => rfl
  | cons e earlier ih => exact congrArg (· + 1) ih

/-- **A step of the machine is a step of the reading back.** -/
theorem step_ofTrees (t : Token) (trees : List Expr) :
    (ofTrees trees).step t =
      (Expr.combine t trees).elim (.error .missingOperand) fun next => .ok (ofTrees next) := by
  cases t with
  | atom a => rfl
  | quantifier q => rcases trees with _ | ⟨body, trees⟩ <;> rfl
  | cat => rcases trees with _ | ⟨right, _ | ⟨left, trees⟩⟩ <;> rfl
  | alt => rcases trees with _ | ⟨right, _ | ⟨left, trees⟩⟩ <;> rfl

/-- **A run of the machine is a run of the reading back.** -/
theorem run_ofTrees (tokens : List Token) (trees : List Expr) :
    (ofTrees trees).run tokens =
      (Expr.decode trees tokens).elim (.error .missingOperand) fun last => .ok (ofTrees last) := by
  induction tokens generalizing trees with
  | nil => rfl
  | cons t rest ih =>
      rw [run, step_ofTrees, Expr.decode_cons]
      cases Expr.combine t trees with
      | none => rfl
      | some next => exact ih next

/-- A sequence that is taken in whole leaves a piece for each of its trees. -/
theorem run_eq_ok_iff {tokens : List Token} {m : Assembly} :
    start.run tokens = .ok m ↔ ∃ trees, Expr.decode [] tokens = some trees ∧ m = ofTrees trees := by
  have follows : start.run tokens = _ := run_ofTrees tokens []
  rw [follows]
  cases Expr.decode [] tokens with
  | none => exact iff_of_false (fun runs => by cases runs) fun ⟨_, decodes, _⟩ => by cases decodes
  | some trees =>
      constructor
      · intro runs
        cases runs
        exact ⟨trees, rfl, rfl⟩
      · rintro ⟨_, decodes, rfl⟩
        cases decodes
        rfl

/-- Some token meets fewer pieces on the stack than it takes. -/
def RunsShort (tokens : List Token) : Prop :=
  ∃ front t back m, tokens = front ++ t :: back ∧ start.run front = .ok m ∧
    m.stack.length < t.operands

theorem runsShort_iff {tokens : List Token} :
    RunsShort tokens ↔ Expr.decode [] tokens = none := by
  rw [Expr.decode_eq_none_iff]
  constructor
  · rintro ⟨front, t, back, m, whole, runs, few⟩
    obtain ⟨trees, decodes, rfl⟩ := run_eq_ok_iff.mp runs
    rw [length_ofTrees] at few
    exact ⟨front, t, back, trees, whole, decodes, few⟩
  · rintro ⟨front, t, back, trees, whole, decodes, few⟩
    rw [← length_ofTrees] at few
    exact ⟨front, t, back, _, whole, run_eq_ok_iff.mpr ⟨trees, decodes, rfl⟩, few⟩

end Assembly

/-! ## The three outcomes -/

theorem Assembly.finish_ofTrees (trees : List Expr) :
    (∃ e : Option Expr, trees = e.toList ∧ (ofTrees trees).finish = .ok (Nfa.ofExpr e)) ∨
      1 < trees.length ∧ (ofTrees trees).finish = .error (.leftover trees.length) := by
  rcases trees with _ | ⟨last, _ | ⟨before, trees⟩⟩
  · exact .inl ⟨none, rfl, rfl⟩
  · exact .inl ⟨some last, rfl, rfl⟩
  · refine .inr ⟨by simp, ?_⟩
    rw [← length_ofTrees]
    rfl

/-- Only a missing operand is reported as one. -/
theorem BuildError.message_leftover_ne (n : Nat) :
    (leftover n).message ≠ missingOperand.message := by
  intro same
  have written : (leftover n).message.toList =
      "postfix sequence left ".toList ++ n.repr.toList ++ " fragments".toList := by
    show ("postfix sequence left " ++ n.repr ++ " fragments").toList = _
    rw [String.toList_append, String.toList_append]
  have chars : (leftover n).message.toList =
      "every postfix operator has its operands on the stack".toList := congrArg String.toList same
  rw [written] at chars
  cases congrArg List.head? chars

namespace Nfa

open Assembly (RunsShort)
open Token (balance)

/-- **What becomes of a sequence.**  It runs short of operands, or it is the postfix form of an
expression or of nothing, or it holds several expressions side by side. -/
theorem ofPostfix_cases (tokens : List Token) :
    (RunsShort tokens ∧ ofPostfix tokens = .error .missingOperand) ∨
    ¬RunsShort tokens ∧
      ((∃ e, Expr.postorderOf e = tokens ∧ ofPostfix tokens = .ok (ofExpr e)) ∨
        ∃ n : Nat, 1 < n ∧ n = balance tokens ∧ ofPostfix tokens = .error (.leftover n)) := by
  have follows : Assembly.start.run tokens = _ := Assembly.run_ofTrees tokens []
  rw [Assembly.runsShort_iff, ofPostfix, follows]
  cases decodes : Expr.decode [] tokens with
  | none => exact .inl ⟨rfl, rfl⟩
  | some trees =>
      refine .inr ⟨Option.some_ne_none trees, ?_⟩
      rcases Assembly.finish_ofTrees trees with ⟨e, rfl, finishes⟩ | ⟨several, finishes⟩
      · refine .inl ⟨e, ?_, finishes⟩
        rw [Expr.decode_eq_some_iff.mp decodes]
        cases e <;> rfl
      · have length := Expr.length_decode decodes
        exact .inr ⟨trees.length, several, by simpa using length, finishes⟩

/-- A sequence that builds an automaton is the postfix form of an expression, or of nothing,
whose automaton it builds. -/
theorem exists_expr_of_ofPostfix {tokens : List Token} {nfa : Nfa}
    (builds : ofPostfix tokens = .ok nfa) :
    ∃ e, Expr.postorderOf e = tokens ∧ ofExpr e = nfa := by
  rcases ofPostfix_cases tokens with ⟨_, fails⟩ | ⟨_, ⟨e, same, builds'⟩ | ⟨n, _, _, fails⟩⟩
  · rw [fails] at builds
    cases builds
  · rw [builds'] at builds
    exact ⟨e, same, Except.ok.inj builds⟩
  · rw [fails] at builds
    cases builds

theorem exists_ofPostfix_iff {tokens : List Token} :
    (∃ nfa, ofPostfix tokens = .ok nfa) ↔ tokens = [] ∨ ∃ e : Expr, e.postorder = tokens := by
  constructor
  · rintro ⟨nfa, builds⟩
    obtain ⟨e, rfl, _⟩ := exists_expr_of_ofPostfix builds
    cases e with
    | none => exact .inl rfl
    | some e => exact .inr ⟨e, rfl⟩
  · rintro (rfl | ⟨e, rfl⟩)
    · exact ⟨_, ofPostfix_postorderOf none⟩
    · exact ⟨_, ofPostfix_postorderOf (some e)⟩

theorem ofPostfix_missingOperand_iff {tokens : List Token} :
    ofPostfix tokens = .error .missingOperand ↔ RunsShort tokens := by
  rcases ofPostfix_cases tokens with ⟨short, fails⟩ | ⟨full, ⟨e, _, builds⟩ | ⟨n, _, _, fails⟩⟩
  · exact iff_of_true fails short
  · refine iff_of_false ?_ full
    rw [builds]
    intro same
    cases same
  · refine iff_of_false ?_ full
    rw [fails]
    intro same
    cases same

theorem mapError_message_eq_iff {tokens : List Token} :
    (ofPostfix tokens).mapError BuildError.message = .error BuildError.missingOperand.message ↔
      ofPostfix tokens = .error .missingOperand := by
  cases ofPostfix tokens with
  | ok nfa => exact iff_of_false (fun same => by cases same) (fun same => by cases same)
  | error e =>
      cases e with
      | missingOperand => exact iff_of_true rfl rfl
      | leftover n =>
          refine iff_of_false (fun same => ?_) (fun same => by cases same)
          exact BuildError.message_leftover_ne n (Except.error.inj same)

/-- **The outcomes of building from a sequence.**

An automaton is built exactly from the empty sequence and from the postfix forms of
expressions, and a sequence is the postfix form of at most one expression.  A missing operand is
reported exactly if some token meets fewer pieces on the stack than it takes.  Otherwise it is
reported how many pieces, more than one, are left at the end.  Nothing else stops the machine,
neither before the fault nor in a sequence without one. -/
theorem ofPostfix_outcomes (tokens : List Token) :
    ((∃ nfa, ofPostfix tokens = .ok nfa) ↔ tokens = [] ∨ ∃ e : Expr, e.postorder = tokens) ∧
    {e : Expr | e.postorder = tokens}.Subsingleton ∧
    ((ofPostfix tokens).mapError BuildError.message =
        .error "every postfix operator has its operands on the stack" ↔
      ∃ front t back m, tokens = front ++ t :: back ∧ Assembly.start.run front = .ok m ∧
        m.stack.length < t.operands) ∧
    ((∃ nfa, ofPostfix tokens = .ok nfa) ∨
      (ofPostfix tokens).mapError BuildError.message =
        .error "every postfix operator has its operands on the stack" ∨
      ∃ n : Nat, 1 < n ∧ n = balance tokens ∧ (ofPostfix tokens).mapError BuildError.message =
        .error ("postfix sequence left " ++ n.repr ++ " fragments")) ∧
    (∀ k, Assembly.start.run? (tokens.take k) = (Assembly.start.run (tokens.take k)).toOption) ∧
    (Assembly.start.run? tokens).bind Assembly.finish? = (ofPostfix tokens).toOption := by
  refine ⟨exists_ofPostfix_iff, ?_, ?_, ?_, ?_, checked_ofPostfix tokens⟩
  · rintro e rfl e' same
    exact Expr.postorder_injective same.symm
  · exact mapError_message_eq_iff.trans ofPostfix_missingOperand_iff
  · rcases ofPostfix_cases tokens with ⟨_, fails⟩ | ⟨_, ⟨e, _, builds⟩ | ⟨n, several, same, fails⟩⟩
    · exact .inr (.inl (mapError_message_eq_iff.mpr fails))
    · exact .inl ⟨_, builds⟩
    · refine .inr (.inr ⟨n, several, same, ?_⟩)
      rw [fails]
      rfl
  · exact fun k => Assembly.run?_eq_toOption Assembly.coherent_start (tokens.take k)

/-- Two atoms side by side leave two pieces. -/
example : ofPostfix [.atom (.char 'a' false), .atom (.char 'b' false)] = .error (.leftover 2) :=
  rfl

end Nfa

end RegexAutomaton
