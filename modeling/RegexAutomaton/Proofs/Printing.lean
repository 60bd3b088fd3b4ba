import RegexAutomaton.Token

/-!
# Printed sequences are told apart

A postfix sequence is printed with its characters raw, so that a token may hold what otherwise
ends a token or stands between two of them.  Nevertheless a sequence is told by what is printed.

**Where a token ends.** The text of a token may begin with that of another one: the caret prints as
`Character<^>`, and its printed form goes on to `Character<^>>`, the negated angle bracket.
What is behind a token of a sequence is nothing or a space (`Boundary`), and with that behind
them no two tokens are confused (`Token.eq_of_text_append`).

**Classes.** The members of a class may well include the angle bracket and the space.  They are
printed in ascending order, and the space comes first, so within a class no angle bracket has a
space right behind it.  The first angle bracket that has a boundary behind it closes the class
(`eq_of_members_append`).

**Result.** Sequences with the same text are equal (`Token.textOfList_inj`).
-/

set_option autoImplicit false

namespace RegexAutomaton

/-! ## The texts letter by letter -/

theorem Atom.text_char (c : Char) (negate : Bool) : (Atom.char c negate).text =
    ['C', 'h', 'a', 'r', 'a', 'c', 't', 'e', 'r', '<'] ++ (if negate then ['^'] else []) ++
      [c, '>'] := rfl

theorem Atom.text_any (negate : Bool) : (Atom.any negate).text =
    ['C', 'h', 'a', 'r', 'a', 'c', 't', 'e', 'r', '<'] ++ (if negate then ['^'] else []) ++
      ['a', 'n', 'y', '>'] := rfl

theorem Atom.text_within (k : CharClass) : (Atom.within k).text =
    (if k.negate then ['^'] else []) ++ ['R', 'a', 'n', 'g', 'e', '<'] ++ k.members.toList ++
      ['>'] := rfl

theorem Token.text_quantifier (q : Quantifier) : (Token.quantifier q).text =
    ['O', 'p', 'e', 'r', 'a', 't', 'o', 'r', '<', q.toChar, '>'] := rfl

theorem Token.text_cat : Token.cat.text =
    ['C', 'o', 'n', 'c', 'a', 't', 'e', 'n', 'a', 't', 'i', 'o', 'n'] := rfl

theorem Token.text_alt : Token.alt.text =
    ['D', 'i', 's', 'j', 'u', 'n', 'c', 't', 'i', 'o', 'n'] := rfl

/-! ## What is behind a token -/

/-- What may be behind a token: nothing, or a space and anything. -/
inductive Boundary : List Char → Prop where
  | nil : Boundary []
  | space (rest : List Char) : Boundary (' ' :: rest)

theorem Boundary.head_eq {c : Char} {rest : List Char} (ends : Boundary (c :: rest)) : c = ' ' := by
  cases ends
  rfl

/-- **No list of members goes on past the angle bracket** that has a boundary behind it. -/
theorem eq_nil_of_members_append {members more rest rest' : List Char}
    (ascending : (members ++ more).Pairwise (· < ·)) (ends : Boundary rest)
    (same : '>' :: rest = more ++ '>' :: rest') : more = [] := by
  match more with
  | [] => rfl
  | [c] =>
      obtain ⟨_, rfl⟩ := List.cons.inj same
      exact absurd ends.head_eq (by decide)
  | c :: d :: more =>
      -- the member behind the angle bracket would be the space, which comes before it
      obtain ⟨rfl, rfl⟩ := List.cons.inj same
      obtain rfl : d = ' ' := ends.head_eq
      have behind := (List.pairwise_append.mp ascending).2.1
      have later : '>' < ' ' := (List.pairwise_cons.mp behind).1 ' ' List.mem_cons_self
      exact absurd later (by decide)

/-- **The members of a class are told by what is printed of them**, with a boundary behind. -/
theorem eq_of_members_append {members members' rest rest' : List Char}
    (ascending : members.Pairwise (· < ·)) (ascending' : members'.Pairwise (· < ·))
    (ends : Boundary rest) (ends' : Boundary rest')
    (same : members ++ '>' :: rest = members' ++ '>' :: rest') :
    members = members' ∧ rest = rest' := by
  suffices members = members' by
    subst this
    exact ⟨rfl, (List.cons.inj (List.append_cancel_left same)).2⟩
  rcases List.append_eq_append_iff.mp same with ⟨more, rfl, behind⟩ | ⟨more, rfl, behind⟩
  · rw [eq_nil_of_members_append ascending' ends behind, List.append_nil]
  · rw [eq_nil_of_members_append ascending ends' behind, List.append_nil]

/-! ## One token -/

section Cancel

variable {rest rest' : List Char}

namespace Atom

theorem char_eq_of_text_append {c d : Char} {negate negate' : Bool} (ends : Boundary rest)
    (ends' : Boundary rest')
    (same : (char c negate).text ++ rest = (char d negate').text ++ rest') :
    char c negate = char d negate' ∧ rest = rest' := by
  cases negate <;> cases negate' <;> simp [text_char] at same
  case false.false | true.true =>
    obtain ⟨rfl, rfl⟩ := same
    exact ⟨rfl, rfl⟩
  -- one of the two is the caret, and the other one, negated, has an angle bracket too many
  case false.true =>
    obtain ⟨_, _, rfl⟩ := same
    exact absurd ends.head_eq (by decide)
  case true.false =>
    obtain ⟨_, _, rfl⟩ := same
    exact absurd ends'.head_eq (by decide)

theorem any_eq_of_text_append {negate negate' : Bool}
    (same : (any negate).text ++ rest = (any negate').text ++ rest') :
    any negate = any negate' ∧ rest = rest' := by
  cases negate <;> cases negate' <;> simp [text_any] at same
  all_goals exact ⟨rfl, same⟩

theorem char_text_append_ne_any (c : Char) (negate negate' : Bool) :
    (char c negate).text ++ rest ≠ (any negate').text ++ rest' := by
  cases negate <;> cases negate' <;> simp [text_char, text_any]

theorem within_eq_of_text_append {k l : CharClass} (ends : Boundary rest) (ends' : Boundary rest')
    (same : (within k).text ++ rest = (within l).text ++ rest') : k = l ∧ rest = rest' := by
  obtain ⟨members, negate⟩ := k
  obtain ⟨members', negate'⟩ := l
  have ascending := members.pairwise_toList
  have ascending' := members'.pairwise_toList
  cases negate <;> cases negate' <;> simp [text_within] at same
  all_goals
    obtain ⟨sameMembers, rfl⟩ := eq_of_members_append ascending ascending' ends ends' same
    rw [CharSet.toList_inj.mp sameMembers]
    exact ⟨rfl, rfl⟩

/-- A class is printed unlike any other atom. -/
theorem exists_within_of_text_append {k : CharClass} {a : Atom}
    (same : (within k).text ++ rest = a.text ++ rest') : ∃ l, a = within l := by
  cases a with
  | char c negate => cases negated : k.negate <;> simp [text_char, text_within, negated] at same
  | any negate => cases negated : k.negate <;> simp [text_any, text_within, negated] at same
  | within l => exact ⟨l, rfl⟩

/-- **An atom is told by its text**, with a boundary behind. -/
theorem eq_of_text_append {a b : Atom} (ends : Boundary rest) (ends' : Boundary rest')
    (same : a.text ++ rest = b.text ++ rest') : a = b ∧ rest = rest' := by
  cases a with
  | char c negate =>
      cases b with
      | char d negate' => exact char_eq_of_text_append ends ends' same
      | any negate' => exact absurd same (char_text_append_ne_any c negate negate')
      | within l =>
          obtain ⟨k, other⟩ := exists_within_of_text_append same.symm
          cases other
  | any negate =>
      cases b with
      | char d negate' => exact absurd same.symm (char_text_append_ne_any d negate' negate)
      | any negate' => exact any_eq_of_text_append same
      | within l =>
          obtain ⟨k, other⟩ := exists_within_of_text_append same.symm
          cases other
  | within k =>
      obtain ⟨l, rfl⟩ := exists_within_of_text_append same
      obtain ⟨rfl, rfl⟩ := within_eq_of_text_append ends ends' same
      exact ⟨rfl, rfl⟩

/-- What the text of an atom opens with. -/
theorem exists_opening (a : Atom) : ∃ tail, a.text = 'C' :: 'h' :: tail ∨
    a.text = '^' :: tail ∨ a.text = 'R' :: tail := by
  cases a with
  | char c negate => exact ⟨_, .inl rfl⟩
  | any negate => exact ⟨_, .inl rfl⟩
  | within k =>
      obtain ⟨members, negate⟩ := k
      cases negate with
      | true => exact ⟨_, .inr (.inl rfl)⟩
      | false => exact ⟨_, .inr (.inr rfl)⟩

end Atom

namespace Token

/-- An atom is printed unlike any other token. -/
theorem exists_atom_of_text_append {a : Atom} {t : Token}
    (same : a.text ++ rest = t.text ++ rest') : ∃ b, t = .atom b := by
  obtain ⟨tail, opening⟩ := a.exists_opening
  cases t with
  | atom b => exact ⟨b, rfl⟩
  | quantifier q => rcases opening with word | word | word <;> simp [word, text_quantifier] at same
  | cat => rcases opening with word | word | word <;> simp [word, text_cat] at same
  | alt => rcases opening with word | word | word <;> simp [word, text_alt] at same

/-- **A token is told by its text**, with a boundary behind. -/
theorem eq_of_text_append {t t' : Token} (ends : Boundary rest) (ends' : Boundary rest')
    (same : t.text ++ rest = t'.text ++ rest') : t = t' ∧ rest = rest' := by
  cases t with
  | atom a =>
      obtain ⟨b, rfl⟩ := exists_atom_of_text_append same
      obtain ⟨rfl, rfl⟩ := Atom.eq_of_text_append ends ends' same
      exact ⟨rfl, rfl⟩
  | quantifier q =>
      cases t' with
      | atom b =>
          obtain ⟨_, other⟩ := exists_atom_of_text_append same.symm
          cases other
      | quantifier q' => cases q <;> cases q' <;> simp_all [text_quantifier, Quantifier.toChar]
      | cat => simp [text_quantifier, text_cat] at same
      | alt => simp [text_quantifier, text_alt] at same
  | cat =>
      cases t' with
      | atom b =>
          obtain ⟨_, other⟩ := exists_atom_of_text_append same.symm
          cases other
      | quantifier q => simp [text_quantifier, text_cat] at same
      | cat => exact ⟨rfl, List.append_cancel_left same⟩
      | alt => simp [text_cat, text_alt] at same
  | alt =>
      cases t' with
      | atom b =>
          obtain ⟨_, other⟩ := exists_atom_of_text_append same.symm
          cases other
      | quantifier q => simp [text_quantifier, text_alt] at same
      | cat => simp [text_cat, text_alt] at same
      | alt => exact ⟨rfl, List.append_cancel_left same⟩

end Token

end Cancel

/-! ## Whole sequences -/

namespace Token

/-- What is printed of a sequence behind an earlier token. -/
def textBehind : List Token → List Char
  | [] => []
  | t :: rest => ' ' :: textOfList (t :: rest)

theorem boundary_textBehind (tokens : List Token) : Boundary (textBehind tokens) := by
  cases tokens with
  | nil => exact .nil
  | cons t rest => exact .space _

theorem textOfList_cons (t : Token) (rest : List Token) :
    textOfList (t :: rest) = t.text ++ textBehind rest := by
  cases rest with
  | nil => exact (List.append_nil _).symm
  | cons t' rest => rfl

theorem textOfList_eq_of_textBehind_eq {tokens tokens' : List Token}
    (same : textBehind tokens = textBehind tokens') : textOfList tokens = textOfList tokens' := by
  cases tokens with
  | nil =>
      cases tokens' with
      | nil => rfl
      | cons t' rest' => cases same
  | cons t rest =>
      cases tokens' with
      | nil => cases same
      | cons t' rest' => exact (List.cons.inj same).2

theorem text_ne_nil (t : Token) : t.text ≠ [] := by
  cases t with
  | atom a =>
      show a.text ≠ []
      obtain ⟨tail, word | word | word⟩ := a.exists_opening <;> simp [word]
  | quantifier q => simp [text_quantifier]
  | cat => simp [text_cat]
  | alt => simp [text_alt]

theorem textOfList_cons_ne_nil (t : Token) (rest : List Token) : textOfList (t :: rest) ≠ [] := by
  rw [textOfList_cons]
  exact List.append_ne_nil_of_left_ne_nil (text_ne_nil t) _

/-- **A sequence is told by what is printed of it.**  Sequences of any length have the same text
only if they are equal token by token, with the negation of each atom and the members of each
class, although characters are printed raw. -/
theorem textOfList_inj {tokens tokens' : List Token} :
    textOfList tokens = textOfList tokens' ↔ tokens = tokens' := by
  refine ⟨fun same => ?_, congrArg textOfList⟩
  induction tokens generalizing tokens' with
  | nil =>
      cases tokens' with
      | nil => rfl
      | cons t' rest' => exact absurd same.symm (textOfList_cons_ne_nil t' rest')
  | cons t rest ih =>
      cases tokens' with
      | nil => exact absurd same (textOfList_cons_ne_nil t rest)
      | cons t' rest' =>
          rw [textOfList_cons, textOfList_cons] at same
          obtain ⟨rfl, behind⟩ := eq_of_text_append (boundary_textBehind rest)
            (boundary_textBehind rest') same
          rw [ih (textOfList_eq_of_textBehind_eq behind)]

/-- Without a boundary behind them two tokens may be confused. -/
example : (Token.atom (.char '^' false)).text ++ ['>'] = (Token.atom (.char '>' true)).text := rfl

end Token

end RegexAutomaton
