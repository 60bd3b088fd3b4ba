import RegexAutomaton.Atom
import RegexAutomaton.Quantifier
import RegexAutomaton.Pattern.Bracket
import RegexAutomaton.Pattern.Malformed

/-!
# Lexemes of a pattern

A pattern is read from left to right, one lexeme at a time.  A lexeme is a single
character with a meaning of its own, an escaped character, a whole bracket
expression, or a whole group.  A group is delivered as raw text, found by counting
parentheses; what it means is for the next reading of that text to say.  So a group
that is never closed is reported before anything that is wrong inside it.

Every lexeme consumes text: the raw text of a group and the text after a lexeme are
together shorter than the text that was read (`read_length`).
-/

set_option autoImplicit false

namespace RegexAutomaton.Pattern

/-- The text before the closing bracket and the text after it. -/
def takeBrackets : List Char → Except Malformed (List Char × List Char)
  | [] => .error .unclosedBrackets
  | c :: rest =>
    if c = ']' then .ok ([], rest)
    else if c = '\\' then .error .escapeInBrackets
    else (takeBrackets rest).map fun (contents, after) => (c :: contents, after)

/-- The text before the parenthesis that closes the current group and the text after it.

`depth` counts the groups opened inside the current one, and `bracketed` tells whether
the text stands between square brackets, where parentheses are ordinary characters.  An
escaped character is copied together with its backslash. -/
def takeGroup (depth : Nat) (bracketed : Bool) : List Char → Option (List Char × List Char)
  | [] => none
  | c :: rest =>
    if bracketed then
      (takeGroup depth (c != ']') rest).map fun (inner, after) => (c :: inner, after)
    else if c = '\\' then
      match rest with
      | [] => none
      | d :: rest =>
        (takeGroup depth false rest).map fun (inner, after) => (c :: d :: inner, after)
    else if c = '[' then
      (takeGroup depth true rest).map fun (inner, after) => (c :: inner, after)
    else if c = '(' then
      (takeGroup (depth + 1) false rest).map fun (inner, after) => (c :: inner, after)
    else if c = ')' then
      match depth with
      | 0 => some ([], rest)
      | depth + 1 => (takeGroup depth false rest).map fun (inner, after) => (c :: inner, after)
    else
      (takeGroup depth false rest).map fun (inner, after) => (c :: inner, after)

/-- What a pattern is read as, piece by piece. -/
inductive Lexeme where
  /-- A test on one character. -/
  | atom (a : Atom)
  /-- The raw text between two matching parentheses. -/
  | group (inner : List Char)
  /-- A repetition operator. -/
  | quantifier (q : Quantifier)
  /-- The bar between two alternatives. -/
  | bar
  /-- The caret that negates the next atom. -/
  | caret
  deriving DecidableEq

namespace Lexeme

/-- The text that a lexeme leaves to be read: that of a group. -/
def inner : Lexeme → List Char
  | .group inner => inner
  | _ => []

/-- Reads the lexeme that starts with `c`: the lexeme, and the text after it. -/
def read (c : Char) (rest : List Char) : Except Malformed (Lexeme × List Char) :=
  match c with
  | '\\' =>
    match rest with
    | [] => .error .trailingEscape
    | escaped :: after => .ok (.atom (.char escaped false), after)
  | '[' => (takeBrackets rest).map fun (contents, after) =>
      (.atom (.within (Bracket.toClass contents)), after)
  | '(' =>
    match takeGroup 0 false rest with
    | none => .error .unclosedGroup
    | some (inner, after) => .ok (.group inner, after)
  | ')' => .error .unopenedGroup
  | '^' => .ok (.caret, rest)
  | '|' => .ok (.bar, rest)
  | '.' => .ok (.atom (.any false), rest)
  | c =>
    match Quantifier.ofChar? c with
    | some q => .ok (.quantifier q, rest)
    | none => .ok (.atom (.char c false), rest)

end Lexeme

/-! ## Reading consumes text -/

theorem takeBrackets_eq_append {text contents after : List Char}
    (h : takeBrackets text = .ok (contents, after)) : text = contents ++ ']' :: after := by
  induction text generalizing contents with
  | nil => cases h
  | cons c rest ih =>
    unfold takeBrackets at h
    split at h
    · rename_i closing
      cases h
      simp [closing]
    · split at h
      · cases h
      · cases inner : takeBrackets rest with
        | error e => rw [inner] at h; cases h
        | ok found =>
          rw [inner] at h
          cases h
          simp [ih inner]

theorem takeGroup_eq_append {depth : Nat} {bracketed : Bool} {text inner after : List Char}
    (h : takeGroup depth bracketed text = some (inner, after)) : text = inner ++ ')' :: after := by
  fun_induction takeGroup depth bracketed text generalizing inner <;>
    simp_all only [Option.map_eq_some_iff, Prod.mk.injEq, Prod.exists, reduceCtorEq,
      Option.some.injEq] <;> grind

namespace Lexeme

/-- **Reading a lexeme consumes its first character, and never delivers text twice.** -/
theorem read_length {c : Char} {rest after : List Char} {lexeme : Lexeme}
    (h : read c rest = .ok (lexeme, after)) :
    lexeme.inner.length + after.length ≤ rest.length := by
  unfold read at h
  split at h
  · split at h
    · cases h
    · cases h
      simp [inner]
  · cases found : takeBrackets rest with
    | error e => rw [found] at h; cases h
    | ok parts =>
      rw [found] at h
      cases h
      simp [takeBrackets_eq_append found, inner]
      omega
  · split at h
    · cases h
    · rename_i found
      cases h
      simp [takeGroup_eq_append found, inner]
  · cases h
  · cases h
    simp [inner]
  · cases h
    simp [inner]
  · cases h
    simp [inner]
  · split at h <;> cases h <;> simp [inner]

end Lexeme

end RegexAutomaton.Pattern
