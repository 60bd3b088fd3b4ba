/-!
# Intervals of characters

An interval holds the characters from one character to another, both included.  It is
never empty.  Code points that are no characters, the surrogates, do not count: an
interval may span them, and the characters right before and right after them are
neighbours (`lt_iff_following_le`).

Two intervals are apart when a character lies between them.  Two that are not apart
either way have a hull that holds no character besides theirs (`mem_hull`), which is
what makes it possible to write a set of characters with as few intervals as there are
gaps in it.
-/

set_option autoImplicit false

namespace RegexAutomaton

/-! ## Code points -/

/-- The order of characters is the order of their code points. -/
theorem le_iff_toNat_le {c d : Char} : c ≤ d ↔ c.toNat ≤ d.toNat := Iff.rfl

theorem lt_iff_toNat_lt {c d : Char} : c < d ↔ c.toNat < d.toNat := Iff.rfl

/-- No character has the code point of a surrogate. -/
theorem toNat_not_surrogate (c : Char) :
    c.toNat < 0xd800 ∨ 0xdfff < c.toNat ∧ c.toNat < 0x110000 := c.valid

/-- The code point after a character, surrogates passed over. -/
def following (c : Char) : Nat := if c.toNat = 0xd7ff then 0xe000 else c.toNat + 1

/-- **The characters after a given one are those from the code point following it.** -/
theorem lt_iff_following_le {c d : Char} : c < d ↔ following c ≤ d.toNat := by
  have valid := toNat_not_surrogate d
  rw [lt_iff_toNat_lt, following]
  split <;> omega

/-- The character with the given code point, if the code point has one. -/
def charOfNat? (n : Nat) : Option Char :=
  if h : n.isValidChar then some (Char.ofNatAux n h) else none

theorem charOfNat?_eq_some_iff {n : Nat} {c : Char} : charOfNat? n = some c ↔ c.toNat = n := by
  unfold charOfNat?
  constructor
  · intro h
    by_cases valid : n.isValidChar
    · rw [dif_pos valid] at h
      cases h
      rfl
    · rw [dif_neg valid] at h
      cases h
  · rintro rfl
    have valid : c.toNat.isValidChar := c.valid
    rw [dif_pos valid]
    rfl

/-- Ascending code points give ascending characters. -/
theorem pairwise_charOfNat? {codes : List Nat} (ascending : codes.Pairwise (· < ·)) :
    (codes.filterMap charOfNat?).Pairwise (· < ·) := by
  refine List.Pairwise.filterMap charOfNat? (fun m n below c hc d hd => ?_) ascending
  rw [lt_iff_toNat_lt, charOfNat?_eq_some_iff.mp hc, charOfNat?_eq_some_iff.mp hd]
  exact below

/-- A code point that follows one character and does not exceed another is itself a
character's. -/
theorem exists_toNat_eq_following {c d : Char} (h : following c ≤ d.toNat) :
    ∃ g : Char, g.toNat = following c := by
  have validLow := toNat_not_surrogate c
  have validHigh := toNat_not_surrogate d
  have valid : (following c).isValidChar := by
    unfold following at h ⊢
    unfold Nat.isValidChar
    split <;> rename_i gap <;> simp only [gap, ↓reduceIte] at h <;> omega
  exact ⟨Char.ofNatAux _ valid, rfl⟩

/-! ## Intervals -/

/-- The characters from `low` to `high`. -/
structure CharInterval where
  low : Char
  high : Char
  low_le_high : low ≤ high
  deriving DecidableEq

namespace CharInterval

instance : Membership Char CharInterval where
  mem i c := i.low ≤ c ∧ c ≤ i.high

theorem mem_iff {c : Char} {i : CharInterval} : c ∈ i ↔ i.low ≤ c ∧ c ≤ i.high := Iff.rfl

theorem mem_iff_toNat {c : Char} {i : CharInterval} :
    c ∈ i ↔ i.low.toNat ≤ c.toNat ∧ c.toNat ≤ i.high.toNat := Iff.rfl

instance (c : Char) (i : CharInterval) : Decidable (c ∈ i) :=
  inferInstanceAs (Decidable (i.low ≤ c ∧ c ≤ i.high))

/-- The interval that holds one character. -/
def single (c : Char) : CharInterval := ⟨c, c, Char.le_refl c⟩

@[simp] theorem mem_single {c d : Char} : c ∈ single d ↔ c = d := by
  constructor
  · intro h
    exact Char.le_antisymm h.2 h.1
  · rintro rfl
    exact ⟨Char.le_refl c, Char.le_refl c⟩

/-- The interval between two characters, if the first does not lie past the second. -/
def between? (low high : Char) : Option CharInterval :=
  if h : low ≤ high then some ⟨low, high, h⟩ else none

/-- Tells whether a character belongs to the interval. -/
def contains (i : CharInterval) (c : Char) : Bool := decide (c ∈ i)

/-- The characters of the interval, ascending. -/
def toList (i : CharInterval) : List Char :=
  (List.range' i.low.toNat (i.high.toNat + 1 - i.low.toNat)).filterMap charOfNat?

/-- **Listing an interval neither adds nor loses a character.** -/
@[simp] theorem mem_toList {c : Char} {i : CharInterval} : c ∈ i.toList ↔ c ∈ i := by
  simp only [toList, List.mem_filterMap, charOfNat?_eq_some_iff, List.mem_range'_1, mem_iff_toNat]
  constructor
  · rintro ⟨n, bounds, rfl⟩
    omega
  · intro bounds
    exact ⟨c.toNat, by omega, rfl⟩

theorem pairwise_toList (i : CharInterval) : i.toList.Pairwise (· < ·) :=
  pairwise_charOfNat? List.pairwise_lt_range'

/-! ## Intervals that are apart -/

/-- A character lies after the first interval and before the second. -/
def Apart (i j : CharInterval) : Prop := following i.high < j.low.toNat

instance (i j : CharInterval) : Decidable (i.Apart j) :=
  inferInstanceAs (Decidable (following i.high < j.low.toNat))

/-- What lies past an interval lies past all that lies before that interval. -/
theorem Apart.low_lt_low {i j : CharInterval} (apart : i.Apart j) : i.low < j.low := by
  have nonempty := le_iff_toNat_le.mp i.low_le_high
  have after : i.high < j.low := lt_iff_following_le.mpr (Nat.le_of_lt apart)
  rw [lt_iff_toNat_lt] at after ⊢
  omega

theorem Apart.lt {i j : CharInterval} (apart : i.Apart j) {c d : Char} (hc : c ∈ i)
    (hd : d ∈ j) : c < d := by
  have after : i.high < j.low := lt_iff_following_le.mpr (Nat.le_of_lt apart)
  rw [lt_iff_toNat_lt] at after ⊢
  rw [mem_iff_toNat] at hc hd
  omega

/-- The smallest interval that includes two given ones. -/
def hull (i j : CharInterval) : CharInterval where
  low := if i.low ≤ j.low then i.low else j.low
  high := if i.high ≤ j.high then j.high else i.high
  low_le_high := by
    have first := le_iff_toNat_le.mp i.low_le_high
    have second := le_iff_toNat_le.mp j.low_le_high
    simp only [le_iff_toNat_le]
    split <;> split <;> omega

/-- **The hull of two intervals that are not apart holds their characters and no others.** -/
theorem mem_hull {i j : CharInterval} (notBefore : ¬i.Apart j) (notAfter : ¬j.Apart i)
    {c : Char} : c ∈ i.hull j ↔ c ∈ i ∨ c ∈ j := by
  have first := le_iff_toNat_le.mp i.low_le_high
  have second := le_iff_toNat_le.mp j.low_le_high
  have pastFirst := @lt_iff_following_le i.high c
  have pastSecond := @lt_iff_following_le j.high c
  rw [lt_iff_toNat_lt] at pastFirst pastSecond
  unfold Apart at notBefore notAfter
  simp only [mem_iff_toNat, hull, le_iff_toNat_le]
  split <;> split <;> omega

end CharInterval

end RegexAutomaton
