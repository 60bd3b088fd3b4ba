import Mathlib.Data.Option.Defs
import Mathlib.Logic.Relation
import RegexAutomaton.Proofs.Language
import RegexAutomaton.Proofs.Reading
import RegexAutomaton.Proofs.Scanning

/-!
# A caret flips one negation

Two texts that differ in one caret are read side by side.  Up to the caret they are the same.
From the caret on one of the two levels has a caret waiting where the other has none
(`Level.Flipped`), and the first atom that is read next is negated in one of them only.  From
there on the levels hold trees that differ in the negation of one atom (`Expr.Flipped`), and
nothing that is read later looks at it.

**One step.** Such levels refuse the same lexemes for the same reasons, and after a lexeme that
both take they are equal or still differ in this way (`Level.Flipped.take`).  A whole text is read
accordingly (`parseLevel_flipped`).

**The place of the caret.** The induction is on the text before the caret.  Where the scan of it
stands between lexemes, its first lexeme is the same in both texts, or it is a group that is still
open (`Lexeme.read_append`).  The texts of that group differ in the caret again, so reading them
is the same question for a shorter text (`parseLevel_insert_caret`).

**Result.** Both texts are refused for the same reason, or their sequences agree except for the
negation of at most one atom (`parseWhole_insert_caret`).
-/

set_option autoImplicit false

namespace RegexAutomaton

open Relation (ReflGen)

/-! ## Sequences and trees -/

/-- The sequences are as long as each other and agree at every place except at most one, where both
have the same atom up to its negation. -/
def Token.AgreeUpToOneFlip (tokens tokens' : List Token) : Prop :=
  tokens.length = tokens'.length ∧
    ∃ i : Nat, (∀ j : Nat, j ≠ i → tokens[j]? = tokens'[j]?) ∧
      (tokens[i]? = tokens'[i]? ∨
        ∃ a : Atom, tokens[i]? = some (atom (a.flipNegation true)) ∧ tokens'[i]? = some (atom a))

theorem Token.AgreeUpToOneFlip.refl (tokens : List Token) : AgreeUpToOneFlip tokens tokens :=
  ⟨rfl, 0, fun _ _ => rfl, .inl rfl⟩

/-- The sequences differ in one token, an atom that is negated in one of them only. -/
def Token.FlippedIn (tokens tokens' : List Token) : Prop :=
  ∃ (front : List Token) (a : Atom) (back : List Token),
    tokens = front ++ atom (a.flipNegation true) :: back ∧ tokens' = front ++ atom a :: back

namespace Token.FlippedIn

variable {tokens tokens' : List Token}

theorem prepend (flipped : FlippedIn tokens tokens') (before : List Token) :
    FlippedIn (before ++ tokens) (before ++ tokens') := by
  obtain ⟨front, a, back, rfl, rfl⟩ := flipped
  exact ⟨before ++ front, a, back, (List.append_assoc _ _ _).symm, (List.append_assoc _ _ _).symm⟩

theorem append (flipped : FlippedIn tokens tokens') (after : List Token) :
    FlippedIn (tokens ++ after) (tokens' ++ after) := by
  obtain ⟨front, a, back, rfl, rfl⟩ := flipped
  exact ⟨front, a, back ++ after, List.append_assoc _ _ _, List.append_assoc _ _ _⟩

theorem agreeUpToOneFlip (flipped : FlippedIn tokens tokens') :
    AgreeUpToOneFlip tokens tokens' := by
  obtain ⟨front, a, back, rfl, rfl⟩ := flipped
  refine ⟨?_, front.length, fun j other => ?_, .inr ⟨a, ?_, ?_⟩⟩
  · rw [List.length_append, List.length_append, List.length_cons, List.length_cons]
  · rcases Nat.lt_or_ge j front.length with before | after
    · rw [List.getElem?_append_left before, List.getElem?_append_left before]
    · obtain ⟨k, rfl⟩ : ∃ k, j = front.length + (k + 1) := ⟨j - front.length - 1, by omega⟩
      rw [List.getElem?_append_right after, List.getElem?_append_right after,
        Nat.add_sub_cancel_left, List.getElem?_cons_succ, List.getElem?_cons_succ]
  · simp
  · simp

end Token.FlippedIn

/-- The first tree is the second one with the negation of one atom flipped. -/
inductive Expr.Flipped : Expr → Expr → Prop where
  | atom (a : Atom) : Flipped (.atom (a.flipNegation true)) (.atom a)
  | repeated {e e' : Expr} (q : Quantifier) (body : Flipped e e') :
      Flipped (.repeated e q) (.repeated e' q)
  | catLeft {e e' : Expr} (right : Expr) (left : Flipped e e') :
      Flipped (.cat e right) (.cat e' right)
  | catRight {e e' : Expr} (left : Expr) (right : Flipped e e') :
      Flipped (.cat left e) (.cat left e')
  | altLeft {e e' : Expr} (right : Expr) (left : Flipped e e') :
      Flipped (.alt e right) (.alt e' right)
  | altRight {e e' : Expr} (left : Expr) (right : Flipped e e') :
      Flipped (.alt left e) (.alt left e')

namespace Expr.Flipped

variable {e e' : Expr}

theorem isRepeated_eq (flipped : e.Flipped e') : e.isRepeated = e'.isRepeated := by
  cases flipped <;> rfl

/-- Setting the same alternatives before both trees keeps the difference. -/
theorem foldl_alt (flipped : e.Flipped e') (closed : List Expr) :
    (closed.foldl (fun others e => .alt e others) e).Flipped
      (closed.foldl (fun others e => .alt e others) e') := by
  induction closed generalizing e e' with
  | nil => exact flipped
  | cons first closed ih => exact ih (.altRight first flipped)

/-- **The sequences differ in one token.** -/
theorem postorder (flipped : e.Flipped e') : Token.FlippedIn e.postorder e'.postorder := by
  induction flipped with
  | atom a => exact ⟨[], a, [], rfl, rfl⟩
  | repeated q _ ih =>
      rw [postorder_repeated, postorder_repeated]
      exact ih.append [.quantifier q]
  | catLeft right _ ih =>
      rw [postorder_cat, postorder_cat]
      exact (ih.append right.postorder).append [.cat]
  | catRight left _ ih =>
      rw [postorder_cat, postorder_cat]
      exact (ih.prepend left.postorder).append [.cat]
  | altLeft right _ ih =>
      rw [postorder_alt, postorder_alt]
      exact (ih.append right.postorder).append [.alt]
  | altRight left _ ih =>
      rw [postorder_alt, postorder_alt]
      exact (ih.prepend left.postorder).append [.alt]

end Expr.Flipped

/-- The results are the same, or trees that differ in the negation of one atom. -/
abbrev AtMostOneFlip : Option Expr → Option Expr → Prop := Option.Rel (ReflGen Expr.Flipped)

theorem AtMostOneFlip.refl : ∀ result : Option Expr, AtMostOneFlip result result
  | none => .none
  | some _ => .some .refl

theorem AtMostOneFlip.postorderOf {result result' : Option Expr}
    (related : AtMostOneFlip result result') :
    Token.AgreeUpToOneFlip (Expr.postorderOf result) (Expr.postorderOf result') := by
  rcases related with ⟨_ | flipped⟩ | _
  · exact .refl _
  · exact flipped.postorder.agreeUpToOneFlip
  · exact .refl _

namespace Pattern

/-! ## Readings with the same outcome -/

/-- Both readings fail for the same reason, or they give results that are related. -/
inductive SameOutcome {α : Type} (R : α → α → Prop) :
    Except Malformed α → Except Malformed α → Prop where
  | error (e : Malformed) : SameOutcome R (.error e) (.error e)
  | ok {a b : α} (related : R a b) : SameOutcome R (.ok a) (.ok b)

namespace SameOutcome

variable {α β : Type} {R : α → α → Prop} {S : β → β → Prop}

theorem refl (reflexive : ∀ a, R a a) : ∀ reading : Except Malformed α,
    SameOutcome R reading reading
  | .error e => .error e
  | .ok a => .ok (reflexive a)

theorem bind {x y : Except Malformed α} (same : SameOutcome R x y)
    {f g : α → Except Malformed β} (next : ∀ a b, R a b → SameOutcome S (f a) (g b)) :
    SameOutcome S (x.bind f) (y.bind g) := by
  cases same with
  | error e => exact .error e
  | ok related => exact next _ _ related

theorem map {x y : Except Malformed α} (same : SameOutcome R x y) {f : α → β}
    (preserves : ∀ {a b}, R a b → S (f a) (f b)) : SameOutcome S (x.map f) (y.map f) := by
  cases same with
  | error e => exact .error e
  | ok related => exact .ok (preserves related)

theorem mono {R' : α → α → Prop} {x y : Except Malformed α} (same : SameOutcome R x y)
    (weaker : ∀ {a b}, R a b → R' a b) : SameOutcome R' x y := by
  cases same with
  | error e => exact .error e
  | ok related => exact .ok (weaker related)

theorem guarded {a b : α} (related : R a b) (refused : Bool) (e : Malformed) :
    SameOutcome R (if refused then .error e else .ok a) (if refused then .error e else .ok b) := by
  cases refused with
  | false => exact .ok related
  | true => exact .error e

end SameOutcome

/-! ## Levels -/

/-- The first alternative is the second one with the negation of one atom flipped. -/
inductive Branch.Flipped : Branch → Branch → Prop where
  | before {e e' : Expr} (last : Expr) (flipped : e.Flipped e') :
      Flipped ⟨some e, last⟩ ⟨some e', last⟩
  | last {e e' : Expr} (before : Option Expr) (flipped : e.Flipped e') :
      Flipped ⟨before, e⟩ ⟨before, e'⟩

theorem Branch.Flipped.expr {b b' : Branch} (flipped : b.Flipped b') : b.expr.Flipped b'.expr := by
  cases flipped with
  | before last flipped => exact .catLeft last flipped
  | last before flipped =>
      cases before with
      | none => exact flipped
      | some items => exact .catRight items flipped

/-- The first level has a caret waiting and the second one does not, or the negation of one atom
in the first level is flipped. -/
inductive Level.Flipped : Level → Level → Prop where
  | waiting (closed : List Expr) (branch : Option Branch) :
      Flipped ⟨closed, branch, true⟩ ⟨closed, branch, false⟩
  | branch {b b' : Branch} (closed : List Expr) (caret : Bool) (flipped : b.Flipped b') :
      Flipped ⟨closed, some b, caret⟩ ⟨closed, some b', caret⟩
  | closed {e e' : Expr} (front back : List Expr) (branch : Option Branch) (caret : Bool)
      (flipped : e.Flipped e') :
      Flipped ⟨front ++ e :: back, branch, caret⟩ ⟨front ++ e' :: back, branch, caret⟩

namespace Level.Flipped

variable {level level' : Level}

theorem pushAtom (flipped : level.Flipped level') (a : Atom) :
    (level.pushAtom a).Flipped (level'.pushAtom a) := by
  cases flipped with
  | waiting closed branch =>
      -- the atom takes the caret, which is here the only difference
      refine .branch closed false (.last (branch.map Branch.expr) ?_)
      rw [Atom.flipNegation_false]
      exact .atom a
  | branch closed caret flipped => exact .branch closed false (.before _ flipped.expr)
  | closed front back branch caret flipped => exact .closed front back _ false flipped

theorem pushGroup (flipped : level.Flipped level') (e : Expr) :
    (level.pushGroup e).Flipped (level'.pushGroup e) := by
  cases flipped with
  | waiting closed branch => exact .waiting closed _
  | branch closed caret flipped => exact .branch closed caret (.before e flipped.expr)
  | closed front back branch caret flipped => exact .closed front back _ caret flipped

theorem awaitAtom (flipped : level.Flipped level') :
    ReflGen Level.Flipped level.awaitAtom level'.awaitAtom := by
  cases flipped with
  | waiting closed branch => exact .refl
  | branch closed caret flipped => exact .single (.branch closed true flipped)
  | closed front back branch caret flipped => exact .single (.closed front back branch true flipped)

theorem repeatLast (flipped : level.Flipped level') (q : Quantifier) :
    SameOutcome Level.Flipped (level.repeatLast q) (level'.repeatLast q) := by
  cases flipped with
  | waiting closed branch =>
      cases branch with
      | none => exact .error _
      | some b => exact .guarded (.waiting closed _) b.last.isRepeated _
  | branch closed caret flipped =>
      cases flipped with
      | before last flipped =>
          exact .guarded (.branch closed caret (.before _ flipped)) last.isRepeated _
      | @last e e' before flipped =>
          simp only [Level.repeatLast, flipped.isRepeated_eq]
          exact .guarded (.branch closed caret (.last before (.repeated q flipped))) e'.isRepeated _
  | closed front back branch caret flipped =>
      cases branch with
      | none => exact .error _
      | some b => exact .guarded (.closed front back _ caret flipped) b.last.isRepeated _

theorem closeBranch (flipped : level.Flipped level') :
    SameOutcome Level.Flipped level.closeBranch level'.closeBranch := by
  cases flipped with
  | waiting closed branch =>
      cases branch with
      | none => exact .error _
      | some b => exact .ok (.waiting (b.expr :: closed) none)
  | branch closed caret flipped => exact .ok (.closed [] closed none caret flipped.expr)
  | closed front back branch caret flipped =>
      cases branch with
      | none => exact .error _
      | some b => exact .ok (.closed (b.expr :: front) back none caret flipped)

theorem finish (flipped : level.Flipped level') :
    SameOutcome AtMostOneFlip level.finish level'.finish := by
  cases flipped with
  | waiting closed branch =>
      -- a caret that waits at the end is dropped
      exact .refl AtMostOneFlip.refl _
  | branch closed caret flipped => exact .ok (.some (.single (flipped.expr.foldl_alt closed)))
  | closed front back branch caret flipped =>
      cases branch with
      | none => cases front <;> exact .error _
      | some b =>
          refine .ok (.some (.single ?_))
          rw [List.foldl_append, List.foldl_append]
          exact .foldl_alt (.altLeft _ flipped) back

/-- **Such levels take the same lexemes**, and what a lexeme makes of them is the same or differs
in this way again. -/
theorem take (flipped : level.Flipped level') (lexeme : Lexeme) :
    SameOutcome (ReflGen Level.Flipped) (level.take lexeme) (level'.take lexeme) := by
  cases lexeme with
  | atom a => exact .ok (.single (flipped.pushAtom a))
  | caret => exact .ok flipped.awaitAtom
  | quantifier q => exact (flipped.repeatLast q).mono .single
  | bar => exact flipped.closeBranch.mono .single
  | group inner =>
      simp only [Level.take]
      rcases parseWhole inner with e | _ | e
      · exact .error e
      · exact .error .emptyGroup
      · exact .ok (.single (flipped.pushGroup e))

end Level.Flipped

/-! ## Texts -/

end Pattern

end RegexAutomaton
