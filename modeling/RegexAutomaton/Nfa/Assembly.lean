import RegexAutomaton.Nfa.Fragment
import RegexAutomaton.Token

/-!
# From expressions to automata

An automaton is assembled from the pieces of its subexpressions.  There are two
routes.  `Nfa.ofExpr` follows the tree and always succeeds.  `Nfa.ofPostfix` reads any
sequence of tokens, with the pieces that wait for their operator on a stack, and fails
when the sequence is not the postfix form of one expression (`BuildError`).

The two agree: on the postfix form of a tree the stack never runs out, exactly one
piece is left, and the automaton is that of the tree (`ofPostfix_postorderOf`).
-/

set_option autoImplicit false

namespace RegexAutomaton

/-- The piece for an expression, added to a table of states. -/
def Expr.assemble : Expr → Array State → Fragment × Array State
  | .atom a, states => Fragment.atom a states
  | .repeated body q, states =>
    let (body, states) := body.assemble states
    body.repeated q states
  | .cat left right, states =>
    let (left, states) := left.assemble states
    let (right, states) := right.assemble states
    left.cat right states
  | .alt left right, states =>
    let (left, states) := left.assemble states
    let (right, states) := right.assemble states
    left.alt right states

namespace Nfa

/-- The automaton that accepts the empty subject alone. -/
def ofNothing (states : Array State) : Nfa := ⟨states, .accept⟩

/-- The automaton that enters a piece and accepts whatever leaves it. -/
def ofFragment (f : Fragment) (states : Array State) : Nfa :=
  ⟨connect states f.dangling .accept, .state f.start⟩

/-- The automaton of an expression, or of the empty subject if there is none. -/
def ofExpr : Option Expr → Nfa
  | none => ofNothing #[]
  | some e =>
    let (f, states) := e.assemble #[]
    ofFragment f states

end Nfa

/-! ## The stack machine -/

/-- Why a sequence of tokens is not the postfix form of an expression. -/
inductive BuildError where
  /-- An operator comes before its operands. -/
  | missingOperand
  /-- The sequence holds several expressions side by side. -/
  | leftover (fragments : Nat)
  deriving DecidableEq

/-- The message that reports the cause. -/
def BuildError.message : BuildError → String
  | .missingOperand => "every postfix operator has its operands on the stack"
  | .leftover fragments => "postfix sequence left " ++ fragments.repr ++ " fragments"

/-- The table of states built so far, and the pieces that wait for an operator, the latest
on top. -/
structure Assembly where
  states : Array State
  stack : List Fragment

namespace Assembly

/-- Nothing built yet. -/
def start : Assembly := ⟨#[], []⟩

/-- Puts a new piece on the stack. -/
def push (stack : List Fragment) (built : Fragment × Array State) : Assembly :=
  ⟨built.2, built.1 :: stack⟩

/-- Takes in one token: operands come off the stack, the combined piece goes on it. -/
def step (m : Assembly) (t : Token) : Except BuildError Assembly :=
  match t, m.stack with
  | .atom a, stack => .ok (push stack (Fragment.atom a m.states))
  | .quantifier q, body :: stack => .ok (push stack (body.repeated q m.states))
  | .cat, right :: left :: stack => .ok (push stack (left.cat right m.states))
  | .alt, right :: left :: stack => .ok (push stack (left.alt right m.states))
  | _, _ => .error .missingOperand

/-- Takes in a sequence of tokens, from left to right. -/
def run (m : Assembly) : List Token → Except BuildError Assembly
  | [] => .ok m
  | t :: rest =>
    match m.step t with
    | .error e => .error e
    | .ok m => m.run rest

/-- The automaton of the one piece left, or of the empty subject if there is none. -/
def finish (m : Assembly) : Except BuildError Nfa :=
  match m.stack with
  | [] => .ok (Nfa.ofNothing m.states)
  | [f] => .ok (Nfa.ofFragment f m.states)
  | stack => .error (.leftover stack.length)

end Assembly

/-- The automaton of a postfix sequence. -/
def Nfa.ofPostfix (tokens : List Token) : Except BuildError Nfa :=
  match Assembly.start.run tokens with
  | .error e => .error e
  | .ok m => m.finish

/-! ## Agreement -/

/-- **Reading the postfix form of a tree puts the tree's piece on the stack**, whatever
follows in the sequence. -/
theorem Assembly.run_postorder (e : Expr) (m : Assembly) (rest : List Token) :
    m.run (e.postorder ++ rest) = (push m.stack (e.assemble m.states)).run rest := by
  induction e generalizing m rest with
  | atom a => rfl
  | repeated body q ih => simp [ih, run, step, push, Expr.assemble]
  | cat left right ihl ihr => simp [ihl, ihr, run, step, push, Expr.assemble]
  | alt left right ihl ihr => simp [ihl, ihr, run, step, push, Expr.assemble]

/-- **Both routes lead to the same automaton.** -/
theorem Nfa.ofPostfix_postorderOf (e : Option Expr) :
    ofPostfix (Expr.postorderOf e) = .ok (ofExpr e) := by
  cases e with
  | none => rfl
  | some e =>
    have run := Assembly.run_postorder e .start []
    rw [List.append_nil] at run
    rw [ofPostfix, Expr.postorderOf, run]
    rfl

end RegexAutomaton
