import RegexAutomaton.Expr
import RegexAutomaton.Pattern.Malformed

/-!
# One nesting level of a pattern

What has been read so far between two matching parentheses, or outside all of them:
the alternatives already closed by a bar, and the one being read.  The alternative
being read keeps its last item apart from those before it, because a repetition
operator applies to the last item alone.

A caret waits for the next atom of its own level.  Groups, operators and bars do not
use it up, and at the end of the level it is forgotten.
-/

set_option autoImplicit false

namespace RegexAutomaton.Pattern

/-- A non-empty alternative that is being read. -/
structure Branch where
  /-- The items before the last one, joined. -/
  before : Option Expr
  /-- The item that a repetition operator would apply to. -/
  last : Expr

namespace Branch

/-- The whole alternative. -/
def expr (b : Branch) : Expr :=
  match b.before with
  | none => b.last
  | some items => .cat items b.last

/-- The alternative with one more item, where `none` is the empty alternative. -/
def push (b : Option Branch) (item : Expr) : Branch := ⟨b.map expr, item⟩

end Branch

/-- What has been read of one nesting level. -/
structure Level where
  /-- The alternatives closed by a bar, latest first. -/
  closed : List Expr
  /-- The alternative being read, `none` as long as it has no item. -/
  branch : Option Branch
  /-- Whether a caret waits for its atom. -/
  caret : Bool

namespace Level

/-- A level of which nothing has been read. -/
def start : Level := ⟨[], none, false⟩

/-- Adds an atom, negated by a waiting caret. -/
def pushAtom (level : Level) (a : Atom) : Level :=
  { level with
    branch := some (Branch.push level.branch (.atom (a.flipNegation level.caret)))
    caret := false }

/-- Adds a group, which leaves a waiting caret alone. -/
def pushGroup (level : Level) (e : Expr) : Level :=
  { level with branch := some (Branch.push level.branch e) }

/-- Lets a caret wait for the next atom. -/
def awaitAtom (level : Level) : Level := { level with caret := true }

/-- Applies a repetition operator to the last item, unless that already ends in one. -/
def repeatLast (level : Level) (q : Quantifier) : Except Malformed Level :=
  match level.branch with
  | none => .error (.nothingToRepeat q.toChar)
  | some b =>
    if b.last.isRepeated then .error (.repeatedOperator q.toChar)
    else .ok { level with branch := some { b with last := .repeated b.last q } }

/-- Closes the alternative being read at a bar. -/
def closeBranch (level : Level) : Except Malformed Level :=
  match level.branch with
  | none => .error .emptyAlternative
  | some b => .ok { level with closed := b.expr :: level.closed, branch := none }

/-- The expression of a level that has been read to its end.  Alternatives group to the
right: the first one is set against all the others. -/
def finish (level : Level) : Except Malformed (Option Expr) :=
  match level.branch, level.closed with
  | none, [] => .ok none
  | none, _ :: _ => .error .emptyAlternative
  | some b, closed => .ok (some (closed.foldl (fun others e => .alt e others) b.expr))

end Level

end RegexAutomaton.Pattern
