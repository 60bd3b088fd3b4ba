import RegexAutomaton.Pattern.Lexeme
import RegexAutomaton.Proofs.Rendering

/-!
# Finding the end of a group

The text of a group is found by counting parentheses.  Escaped characters and bracket
expressions are passed over, and whatever stands in a text of a tree comes with its
closing parenthesis, so that the search passes over the whole text whatever its depth
(`Balanced`).  A group that is written around such a text is therefore found again
(`Balanced.takeGroup_closing`).
-/

set_option autoImplicit false

namespace RegexAutomaton

namespace Pattern

section Equations

variable (depth : Nat) (c : Char) (rest : List Char)

theorem takeGroup_bracketed_cons : takeGroup depth true (c :: rest) =
    (takeGroup depth (c != ']') rest).map fun (inner, after) => (c :: inner, after) := by
  rw [takeGroup.eq_def]
  rfl

theorem takeGroup_escape : takeGroup depth false ('\\' :: c :: rest) =
    (takeGroup depth false rest).map fun (inner, after) => ('\\' :: c :: inner, after) := by
  rw [takeGroup.eq_def]
  rfl

theorem takeGroup_opening_bracket : takeGroup depth false ('[' :: rest) =
    (takeGroup depth true rest).map fun (inner, after) => ('[' :: inner, after) := by
  rw [takeGroup.eq_def]
  rfl

theorem takeGroup_opening : takeGroup depth false ('(' :: rest) =
    (takeGroup (depth + 1) false rest).map fun (inner, after) => ('(' :: inner, after) := by
  rw [takeGroup.eq_def]
  rfl

theorem takeGroup_closing_zero : takeGroup 0 false (')' :: rest) = some ([], rest) := by
  rw [takeGroup.eq_def]
  rfl

theorem takeGroup_closing_succ : takeGroup (depth + 1) false (')' :: rest) =
    (takeGroup depth false rest).map fun (inner, after) => (')' :: inner, after) := by
  rw [takeGroup.eq_def]
  rfl

variable {c} in
theorem takeGroup_ordinary (ordinary : c ∉ ['\\', '[', '(', ')']) :
    takeGroup depth false (c :: rest) =
      (takeGroup depth false rest).map fun (inner, after) => (c :: inner, after) := by
  simp only [List.mem_cons, List.not_mem_nil, or_false, not_or] at ordinary
  rw [takeGroup.eq_def]
  simp [ordinary]

end Equations

theorem takeGroup_bracketed_append {contents : List Char} (unclosed : ∀ c ∈ contents, c ≠ ']')
    (depth : Nat) (rest : List Char) : takeGroup depth true (contents ++ ']' :: rest) =
      (takeGroup depth false rest).map fun (inner, after) => (contents ++ ']' :: inner, after) := by
  induction contents with
  | nil => exact takeGroup_bracketed_cons depth ']' rest
  | cons c contents ih =>
      have here : (c != ']') = true := by simpa using unclosed c List.mem_cons_self
      have tail := ih fun d hd => unclosed d (List.mem_cons_of_mem c hd)
      rw [List.cons_append, takeGroup_bracketed_cons, here, tail, Option.map_map]
      rfl

end Pattern

namespace Grammar

open Pattern

/-- The search for a closing parenthesis passes over the text. -/
def Balanced (text : List Char) : Prop :=
  ∀ (depth : Nat) (rest : List Char), takeGroup depth false (text ++ rest) =
    (takeGroup depth false rest).map fun (inner, after) => (text ++ inner, after)

theorem lexical_balanced : Lexical Balanced where
  nil depth rest := by simp
  append first second depth rest := by
    rw [List.append_assoc, first, second, Option.map_map]
    simp [Function.comp_def]
  single c ordinary depth rest := takeGroup_ordinary depth rest ordinary
  escaped c depth rest := takeGroup_escape depth c rest
  brackets contents depth rest := by
    have closes := takeGroup_bracketed_append (fun c hc => (contents.plain c hc).1) depth rest
    rw [BracketText.written, List.cons_append, List.cons_append, List.append_assoc,
      List.singleton_append, takeGroup_opening_bracket, closes, Option.map_map]
    simp [Function.comp_def]
  parenthesised {inner} balanced depth rest := by
    rw [parenthesised, List.cons_append, List.cons_append, List.append_assoc,
      List.singleton_append, takeGroup_opening, balanced, takeGroup_closing_succ,
      Option.map_map, Option.map_map]
    simp [Function.comp_def]

/-- **A balanced text is found up to the parenthesis that closes it.** -/
theorem Balanced.takeGroup_closing {text : List Char} (balanced : Balanced text)
    (rest : List Char) : takeGroup 0 false (text ++ ')' :: rest) = some (text, rest) := by
  rw [balanced, takeGroup_closing_zero]
  simp

end Grammar

end RegexAutomaton
