import ShortNames.Token.Scan

namespace ShortNames

theorem ascend_blankRanges : ascendFrom 0 blankRanges = true := by decide +kernel

theorem ascend_startRanges : ascendFrom 0 startRanges = true := by decide +kernel

theorem ascend_extendRanges : ascendFrom 0 extendRanges = true := by decide +kernel

/-- Whether no interval of one table meets an interval of another. -/
def apart (first second : List (Nat × Nat)) : Bool :=
  first.all fun one => second.all fun other => one.2 < other.1 || other.2 < one.1

theorem inRanges_eq_false_of_apart {first second : List (Nat × Nat)} (ascending : ascendFrom 0 first = true)
    (ascendingToo : ascendFrom 0 second = true) (disjoint : apart first second = true) {point : Nat}
    (inside : inRanges point first = true) : inRanges point second = false := by
  rw [Bool.eq_false_iff]
  intro insideToo
  obtain ⟨one, member, lower, upper⟩ := (inRanges_iff ascending point).mp inside
  obtain ⟨other, memberToo, lowerToo, upperToo⟩ := (inRanges_iff ascendingToo point).mp insideToo
  have between := List.all_eq_true.mp (List.all_eq_true.mp disjoint one member) other memberToo
  simp only [Bool.or_eq_true, decide_eq_true_eq] at between
  omega

theorem isIdentifierPart_eq_false_of_isBlank {c : Char} (blank : isBlank c = true) :
    isIdentifierPart c = false := by
  have start : isXidStart c = false :=
    inRanges_eq_false_of_apart ascend_blankRanges ascend_startRanges (by decide +kernel) blank
  have extend : inRanges c.toNat extendRanges = false :=
    inRanges_eq_false_of_apart ascend_blankRanges ascend_extendRanges (by decide +kernel) blank
  simp only [isIdentifierPart, start, extend, Bool.or_self]

theorem isIdentifierStart_eq_false {c : Char} (foreign : isIdentifierPart c = false) :
    isIdentifierStart c = false := by
  rw [Bool.eq_false_iff]
  intro start
  rw [isIdentifierPart_of_start start] at foreign
  cases foreign

namespace Token

theorem isBlank_of_isGap {c : Char} (gap : isGap c = true) : isBlank c = true := by
  simp only [isGap, Bool.or_eq_true, beq_iff_eq] at gap
  rcases gap with ((rfl | rfl) | rfl) | rfl <;> decide

theorem isGap_eq_false_of_part {c : Char} (part : isIdentifierPart c = true) : isGap c = false := by
  rw [Bool.eq_false_iff]
  intro gap
  rw [isIdentifierPart_eq_false_of_isBlank (isBlank_of_isGap gap)] at part
  cases part

/-- A character that is a token by itself belongs neither to words nor to what is between tokens. -/
theorem foreign_of_ofChar {c : Char} (valid : Kind.ofChar c ≠ .invalid) :
    isIdentifierPart c = false ∧ isGap c = false ∧ isBlank c = false ∧ c.toNat < 128 := by
  unfold Kind.ofChar at valid
  split at valid
  · decide +kernel
  · decide +kernel
  · decide +kernel
  · decide +kernel
  · decide +kernel
  · decide +kernel
  · decide +kernel
  · decide +kernel
  · exact absurd rfl valid

theorem ofChar_eq_invalid_of_isBlank {c : Char} (blank : isBlank c = true) : Kind.ofChar c = .invalid := by
  by_cases valid : Kind.ofChar c = .invalid
  · exact valid
  · have foreign := foreign_of_ofChar valid
    rw [blank] at foreign
    cases foreign.2.2.1

theorem ofChar_eq_invalid_of_large {c : Char} (large : 128 ≤ c.toNat) : Kind.ofChar c = .invalid := by
  by_cases valid : Kind.ofChar c = .invalid
  · exact valid
  · have foreign := foreign_of_ofChar valid
    omega

theorem isGap_eq_false_of_large {c : Char} (large : 128 ≤ c.toNat) : isGap c = false := by
  rw [Bool.eq_false_iff]
  intro gap
  simp only [isGap, Bool.or_eq_true, beq_iff_eq] at gap
  rcases gap with ((rfl | rfl) | rfl) | rfl <;> exact absurd large (by decide)

end Token

end ShortNames
