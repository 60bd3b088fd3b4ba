import RegexAutomaton.CharInterval

/-!
# Finite sets of characters

A bracket expression stands for a finite set of characters, which may well hold every
character there is.  A set is therefore kept as a list of intervals, in ascending order
and with a gap between neighbours.  There is only one such list for a set, so two sets
with the same members are the same value (`ext_mem`).

The view of a set is membership, `c ∈ s`.  Every operation is described by what it does
to that view: `mem_insertInterval`, `mem_ofIntervals`, `mem_ofList` and `mem_union` for
building, `contains_iff` for testing.  `toList` lists the members in strictly ascending
order (`mem_toList`, `pairwise_toList`).
-/

set_option autoImplicit false

namespace RegexAutomaton

/-- A finite set of characters: ascending intervals with a gap between neighbours. -/
structure CharSet where
  intervals : List CharInterval
  apart : intervals.Pairwise CharInterval.Apart
  deriving DecidableEq

namespace CharSet

open CharInterval (Apart hull)

instance : Membership Char CharSet where
  mem s c := ∃ i ∈ s.intervals, c ∈ i

theorem mem_iff {c : Char} {s : CharSet} : c ∈ s ↔ ∃ i ∈ s.intervals, c ∈ i := Iff.rfl

instance (c : Char) (s : CharSet) : Decidable (c ∈ s) :=
  inferInstanceAs (Decidable (∃ i ∈ s.intervals, c ∈ i))

/-- The set without members. -/
def empty : CharSet := ⟨[], .nil⟩

instance : EmptyCollection CharSet := ⟨empty⟩

theorem not_mem_empty (c : Char) : c ∉ (∅ : CharSet) := by
  rintro ⟨i, hi, _⟩
  exact List.not_mem_nil hi

/-- Tells whether the character is a member. -/
def contains (s : CharSet) (c : Char) : Bool := s.intervals.any fun i => i.contains c

theorem contains_iff {s : CharSet} {c : Char} : s.contains c = true ↔ c ∈ s := by
  simp [contains, CharInterval.contains, mem_iff]

/-! ## Adding an interval -/

/-- Puts an interval at its place among ascending ones, joined with all it touches. -/
def place (i : CharInterval) : List CharInterval → List CharInterval
  | [] => [i]
  | j :: rest =>
    if i.Apart j then i :: j :: rest
    else if j.Apart i then j :: place i rest
    else place (i.hull j) rest

theorem mem_place {c : Char} {i : CharInterval} {l : List CharInterval} :
    (∃ k ∈ place i l, c ∈ k) ↔ c ∈ i ∨ ∃ k ∈ l, c ∈ k := by
  induction l generalizing i with
  | nil => simp [place]
  | cons j rest ih =>
    unfold place
    split
    · simp
    · rename_i notBefore
      split
      · simp only [List.mem_cons, exists_eq_or_imp, ih]
        grind
      · rename_i notAfter
        rw [ih, CharInterval.mem_hull notBefore notAfter]
        simp only [List.mem_cons, exists_eq_or_imp]
        grind

/-- Whatever lies before an interval and before all of a list lies before the list with the
interval placed in it. -/
theorem apart_of_mem_place {j i k : CharInterval} {l : List CharInterval} (first : j.Apart i)
    (others : ∀ m ∈ l, j.Apart m) (hk : k ∈ place i l) : j.Apart k := by
  induction l generalizing i with
  | nil =>
    rw [place, List.mem_singleton] at hk
    exact hk ▸ first
  | cons m rest ih =>
    have tail := fun n (hn : n ∈ rest) => others n (List.mem_cons_of_mem m hn)
    unfold place at hk
    split at hk
    · rcases List.mem_cons.mp hk with rfl | hk
      · exact first
      · exact others k hk
    · split at hk
      · rcases List.mem_cons.mp hk with rfl | hk
        · exact others k List.mem_cons_self
        · exact ih first tail hk
      · refine ih ?_ tail hk
        have second := others m List.mem_cons_self
        unfold Apart hull at *
        dsimp only
        split <;> assumption

theorem pairwise_place {i : CharInterval} {l : List CharInterval} (h : l.Pairwise Apart) :
    (place i l).Pairwise Apart := by
  induction l generalizing i with
  | nil => simp [place]
  | cons j rest ih =>
    have tail := List.pairwise_cons.mp h
    unfold place
    split
    · rename_i before
      refine List.pairwise_cons.mpr ⟨fun k hk => ?_, h⟩
      rcases List.mem_cons.mp hk with rfl | hk
      · exact before
      · have later := (tail.1 k hk).low_lt_low
        rw [lt_iff_toNat_lt] at later
        exact Nat.lt_trans before later
    · split
      · rename_i after
        exact List.pairwise_cons.mpr
          ⟨fun k hk => apart_of_mem_place after tail.1 hk, ih tail.2⟩
      · exact ih tail.2

/-- Adds all characters of an interval. -/
def insertInterval (s : CharSet) (i : CharInterval) : CharSet :=
  ⟨place i s.intervals, pairwise_place s.apart⟩

@[simp] theorem mem_insertInterval {c : Char} {i : CharInterval} {s : CharSet} :
    c ∈ s.insertInterval i ↔ c ∈ i ∨ c ∈ s :=
  mem_place

/-- Adds a character; a member is added without effect. -/
def insert (s : CharSet) (c : Char) : CharSet := s.insertInterval (.single c)

@[simp] theorem mem_insert {c d : Char} {s : CharSet} : c ∈ s.insert d ↔ c = d ∨ c ∈ s := by
  rw [insert, mem_insertInterval, CharInterval.mem_single]

/-- Adds the characters of several intervals, which may overlap and come in any order. -/
def insertIntervals (s : CharSet) (l : List CharInterval) : CharSet :=
  l.foldr (fun i t => t.insertInterval i) s

@[simp] theorem mem_insertIntervals {c : Char} {s : CharSet} {l : List CharInterval} :
    c ∈ s.insertIntervals l ↔ (∃ i ∈ l, c ∈ i) ∨ c ∈ s := by
  induction l with
  | nil => simp [insertIntervals]
  | cons i l ih =>
    have step : s.insertIntervals (i :: l) = (s.insertIntervals l).insertInterval i := rfl
    simp only [step, mem_insertInterval, ih, List.mem_cons, exists_eq_or_imp, or_assoc]

/-- The set of the characters of several intervals. -/
def ofIntervals (l : List CharInterval) : CharSet := insertIntervals ∅ l

@[simp] theorem mem_ofIntervals {c : Char} {l : List CharInterval} :
    c ∈ ofIntervals l ↔ ∃ i ∈ l, c ∈ i := by
  simp [ofIntervals, not_mem_empty]

/-- The set of the characters of a list, in any order and with repetitions. -/
def ofList (cs : List Char) : CharSet := ofIntervals (cs.map .single)

@[simp] theorem mem_ofList {c : Char} {cs : List Char} : c ∈ ofList cs ↔ c ∈ cs := by
  rw [ofList, mem_ofIntervals]
  constructor
  · rintro ⟨i, hi, hc⟩
    obtain ⟨d, hd, rfl⟩ := List.mem_map.mp hi
    exact CharInterval.mem_single.mp hc ▸ hd
  · intro hc
    exact ⟨.single c, List.mem_map.mpr ⟨c, hc, rfl⟩, CharInterval.mem_single.mpr rfl⟩

/-- The members of either set. -/
def union (s t : CharSet) : CharSet := s.insertIntervals t.intervals

@[simp] theorem mem_union {c : Char} {s t : CharSet} : c ∈ s.union t ↔ c ∈ s ∨ c ∈ t := by
  rw [union, mem_insertIntervals, or_comm]
  rfl

/-! ## Listing the members -/

/-- The members in strictly ascending order. -/
def toList (s : CharSet) : List Char := s.intervals.flatMap CharInterval.toList

@[simp] theorem mem_toList {c : Char} {s : CharSet} : c ∈ s.toList ↔ c ∈ s := by
  simp [toList, mem_iff]

theorem pairwise_toList (s : CharSet) : s.toList.Pairwise (· < ·) := by
  refine List.pairwise_flatMap.mpr ⟨fun i _ => i.pairwise_toList, s.apart.imp ?_⟩
  intro i j apart c hc d hd
  exact apart.lt (CharInterval.mem_toList.mp hc) (CharInterval.mem_toList.mp hd)

/-! ## Membership decides equality -/

/-- The members of a list of intervals start with the first one. -/
theorem low_le_of_mem {i : CharInterval} {l : List CharInterval} (h : (i :: l).Pairwise Apart)
    {c : Char} (hc : ∃ k ∈ i :: l, c ∈ k) : i.low ≤ c := by
  obtain ⟨k, hk, hc⟩ := hc
  rcases List.mem_cons.mp hk with rfl | hk
  · exact hc.1
  · have before := ((List.pairwise_cons.mp h).1 k hk).low_lt_low
    rw [lt_iff_toNat_lt] at before
    rw [CharInterval.mem_iff_toNat] at hc
    rw [le_iff_toNat_le]
    omega

/-- Past the first interval, where the code points follow on, its list has a gap. -/
theorem not_mem_gap {i : CharInterval} {l : List CharInterval} (h : (i :: l).Pairwise Apart)
    {g : Char} (hg : g.toNat = following i.high) : ¬∃ k ∈ i :: l, g ∈ k := by
  rintro ⟨k, hk, hc⟩
  have past : i.high < g := lt_iff_following_le.mpr (Nat.le_of_eq hg.symm)
  rw [lt_iff_toNat_lt] at past
  rw [CharInterval.mem_iff_toNat] at hc
  rcases List.mem_cons.mp hk with rfl | hk
  · omega
  · have apart := (List.pairwise_cons.mp h).1 k hk
    unfold Apart at apart
    omega

/-- The first interval of one list ends no later than that of another with the same
members. -/
theorem high_le_high {i j : CharInterval} {l m : List CharInterval}
    (hl : (i :: l).Pairwise Apart)
    (same : ∀ c, (∃ k ∈ i :: l, c ∈ k) ↔ ∃ k ∈ j :: m, c ∈ k) (low : i.low = j.low) :
    j.high ≤ i.high := by
  refine Decidable.byContradiction fun later => ?_
  rw [Char.not_le] at later
  have within := lt_iff_following_le.mp later
  obtain ⟨g, hg⟩ := exists_toNat_eq_following within
  refine not_mem_gap hl hg ((same g).mpr ⟨j, List.mem_cons_self, ?_⟩)
  have past : i.high < g := lt_iff_following_le.mpr (Nat.le_of_eq hg.symm)
  have nonempty := le_iff_toNat_le.mp i.low_le_high
  rw [lt_iff_toNat_lt] at past
  rw [CharInterval.mem_iff_toNat, ← low]
  omega

/-- What a list of intervals holds past its first one is held by the others. -/
theorem mem_tail_iff {i : CharInterval} {l : List CharInterval} (h : (i :: l).Pairwise Apart)
    {c : Char} : (∃ k ∈ l, c ∈ k) ↔ (∃ k ∈ i :: l, c ∈ k) ∧ i.high < c := by
  constructor
  · rintro ⟨k, hk, hc⟩
    exact ⟨⟨k, List.mem_cons_of_mem i hk, hc⟩,
      ((List.pairwise_cons.mp h).1 k hk).lt ⟨i.low_le_high, Char.le_refl _⟩ hc⟩
  · rintro ⟨⟨k, hk, hc⟩, past⟩
    rcases List.mem_cons.mp hk with rfl | hk
    · exact absurd hc.2 (Char.not_le.mpr past)
    · exact ⟨k, hk, hc⟩

theorem eq_of_mem_iff {l m : List CharInterval} (hl : l.Pairwise Apart) (hm : m.Pairwise Apart)
    (same : ∀ c, (∃ k ∈ l, c ∈ k) ↔ ∃ k ∈ m, c ∈ k) : l = m := by
  have holdsLow (i : CharInterval) (l : List CharInterval) : ∃ k ∈ i :: l, i.low ∈ k :=
    ⟨i, List.mem_cons_self, Char.le_refl _, i.low_le_high⟩
  induction l generalizing m with
  | nil =>
    cases m with
    | nil => rfl
    | cons j m =>
      obtain ⟨k, hk, _⟩ := (same j.low).mpr (holdsLow j m)
      exact absurd hk List.not_mem_nil
  | cons i l ih =>
    cases m with
    | nil =>
      obtain ⟨k, hk, _⟩ := (same i.low).mp (holdsLow i l)
      exact absurd hk List.not_mem_nil
    | cons j m =>
      have low : i.low = j.low := Char.le_antisymm
        (low_le_of_mem hl ((same j.low).mpr (holdsLow j m)))
        (low_le_of_mem hm ((same i.low).mp (holdsLow i l)))
      have high : i.high = j.high := Char.le_antisymm
        (high_le_high hm (fun c => (same c).symm) low.symm)
        (high_le_high hl same low)
      have first : i = j := by
        cases i
        cases j
        simp_all
      subst first
      refine congrArg (i :: ·) (ih (List.pairwise_cons.mp hl).2 (List.pairwise_cons.mp hm).2 ?_)
      intro c
      rw [mem_tail_iff hl, mem_tail_iff hm, same]

/-- **Two sets with the same members are equal.** -/
theorem ext_mem {s t : CharSet} (h : ∀ c, c ∈ s ↔ c ∈ t) : s = t := by
  cases s with
  | mk l hl =>
    cases t with
    | mk m hm =>
      have same : l = m := eq_of_mem_iff hl hm h
      subst same
      rfl

/-- A set is told by the list of its members. -/
theorem toList_inj {s t : CharSet} : s.toList = t.toList ↔ s = t := by
  refine ⟨fun h => ext_mem fun c => ?_, fun h => h ▸ rfl⟩
  rw [← mem_toList, ← mem_toList, h]

end CharSet

end RegexAutomaton
