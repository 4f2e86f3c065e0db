import ShortNames.Proofs.Respelling

namespace ShortNames.TypeExpr

open Grammar

/-- What lies on a path from a whole reference down to a name, or to a wildcard without bound: the
steps into an argument, and the inner levels. -/
structure Descent where
  arguments : Nat
  inners : Nat
deriving DecidableEq, Repr

namespace Descent

/-- All levels on the path. The whole reference is the first. -/
def levels (descent : Descent) : Nat :=
  1 + descent.arguments + descent.inners

def intoArgument (descent : Descent) : Descent :=
  { descent with arguments := descent.arguments + 1 }

def throughInner (descent : Descent) : Descent :=
  { descent with inners := descent.inners + 1 }

end Descent

mutual
/-- All paths of a reference, in the order in which their ends are written. -/
def descents : TypeExpr → List Descent
  | .named _ => [⟨0, 0⟩]
  | .generic head args => head.descents ++ descentsAll args
  | .inner outer _ => outer.descents.map Descent.throughInner
  | .array element _ => element.descents
  | .anything => [⟨0, 0⟩]
  | .bounded _ limit => limit.descents

def descentsAll : List TypeExpr → List Descent
  | [] => []
  | type :: rest => type.descents.map Descent.intoArgument ++ descentsAll rest
end

/-- The most levels on a path with a given number of steps into arguments. On every type along the
path all levels to spare may be inner levels, and each step into an argument leaves one less. -/
def reach : Nat → Nat → Nat
  | levels, 0 => levels
  | levels, steps + 1 => levels + reach (levels - 1) steps

theorem reach_mono {levels more : Nat} (within : levels ≤ more) (steps : Nat) :
    reach levels steps ≤ reach more steps := by
  induction steps generalizing levels more with
  | zero => exact within
  | succ steps ih =>
    have rest := ih (by omega : levels - 1 ≤ more - 1)
    simp only [reach]
    omega

namespace Descent

/-- A path within what some levels allow, with room for more inner levels around it. -/
def Fits (levels room : Nat) (descent : Descent) : Prop :=
  descent.arguments < levels ∧ descent.levels + room ≤ reach levels descent.arguments

theorem fits_here {levels room : Nat} (fewer : room < levels) : Fits levels room ⟨0, 0⟩ := by
  refine ⟨Nat.zero_lt_of_lt fewer, ?_⟩
  simp only [Descent.levels, reach]
  omega

theorem Fits.throughInner {levels room : Nat} {descent : Descent} (fits : descent.Fits levels (room + 1)) :
    descent.throughInner.Fits levels room := by
  obtain ⟨few, low⟩ := fits
  refine ⟨few, ?_⟩
  simp only [Descent.levels, Descent.throughInner] at low ⊢
  omega

theorem Fits.mono {levels room less : Nat} {descent : Descent} (fits : descent.Fits levels room)
    (fewer : less ≤ room) : descent.Fits levels less :=
  ⟨fits.1, by have low := fits.2; omega⟩

/-- A path in an argument has been counted from the levels that its type left over. In the type it
may have all of these around it once more, as inner levels that follow the argument. -/
theorem Fits.intoArgument {levels left : Nat} {descent : Descent} (fits : descent.Fits left 0)
    (fewer : left < levels) : descent.intoArgument.Fits levels left := by
  obtain ⟨few, low⟩ := fits
  have more : reach (left + 1) (descent.arguments + 1) ≤ reach levels (descent.arguments + 1) :=
    reach_mono fewer _
  simp only [reach, Nat.add_sub_cancel] at more
  refine ⟨?_, ?_⟩
  · simp only [Descent.intoArgument]
    omega
  · simp only [Descent.levels, Descent.intoArgument, reach] at low ⊢
    omega

end Descent

mutual
/-- A reference at some level has paths within what the levels below the cap allow. -/
theorem fits_of_reference : ∀ {level terminals type}, Reference level terminals type →
    ∀ descent ∈ type.descents, descent.Fits (maxNesting - level) 0
  | level, _, _, .anything below => by
    intro descent member
    rw [List.mem_singleton.mp member]
    exact Descent.fits_here (by omega)
  | _, _, _, @Reference.bounded _ _ _ limit below derived =>
    show ∀ descent ∈ limit.descents, _ from fits_of_arrayType derived below
  | _, _, _, .unbounded below derived => fits_of_arrayType derived below

theorem fits_of_arrayType : ∀ {level terminals type}, ArrayType level terminals type →
    level < maxNesting → ∀ descent ∈ type.descents, descent.Fits (maxNesting - level) 0
  | _, _, _, .element derived, below => fits_of_classType derived below
  | _, _, _, @ArrayType.array _ _ type _ derived _, below =>
    show ∀ descent ∈ type.descents, _ from fits_of_classType derived below

theorem fits_of_classType : ∀ {level terminals type}, ClassType level terminals type →
    level < maxNesting → ∀ descent ∈ type.descents, descent.Fits (maxNesting - level) 0
  | _, _, _, .plain, below => by
    intro descent member
    rw [List.mem_singleton.mp member]
    exact Descent.fits_here (by omega)
  | level, _, _, .applied _ listed derived, below => by
    have fewer : maxNesting - (level + 1) < maxNesting - level := by omega
    refine fits_of_inners derived fewer fun descent member => ?_
    rcases List.mem_append.mp member with head | arg
    · rw [List.mem_singleton.mp head]
      exact Descent.fits_here fewer
    · exact fits_of_arguments listed fewer descent arg

theorem fits_of_arguments : ∀ {level terminals types}, Arguments level terminals types →
    ∀ {levels}, maxNesting - level < levels →
      ∀ descent ∈ descentsAll types, descent.Fits levels (maxNesting - level)
  | _, _, _, .last derived, _, fewer => by
    intro descent member
    rw [descentsAll, descentsAll, List.append_nil] at member
    obtain ⟨inside, inType, rfl⟩ := List.mem_map.mp member
    exact (fits_of_reference derived inside inType).intoArgument fewer
  | _, _, _, .more derived listed, _, fewer => by
    intro descent member
    rcases List.mem_append.mp member with first | later
    · obtain ⟨inside, inType, rfl⟩ := List.mem_map.mp first
      exact (fits_of_reference derived inside inType).intoArgument fewer
    · exact fits_of_arguments listed fewer descent later

theorem fits_of_applied : ∀ {level head terminals type}, Applied level head terminals type →
    ∀ {levels}, maxNesting - level < levels →
      (∀ descent ∈ head.descents, descent.Fits levels (maxNesting - level)) →
      ∀ descent ∈ type.descents, descent.Fits levels (maxNesting - level)
  | _, _, _, _, .plain, _, _, fits => fits
  | _, _, _, _, .applied listed, _, fewer, fits => by
    intro descent member
    rcases List.mem_append.mp member with head | arg
    · exact fits descent head
    · exact fits_of_arguments listed fewer descent arg

/-- Each inner level goes around all that is before it and takes from the room that was left. -/
theorem fits_of_inners : ∀ {level outer terminals type}, Inners level outer terminals type →
    ∀ {levels}, maxNesting - level < levels →
      (∀ descent ∈ outer.descents, descent.Fits levels (maxNesting - level)) →
      ∀ descent ∈ type.descents, descent.Fits levels 0
  | _, _, _, _, .done, _, _, fits => fun descent member => (fits descent member).mono (Nat.zero_le _)
  | level, _, _, _, .next within applied derived, levels, fewer, fits => by
    have room : maxNesting - level = maxNesting - (level + 1) + 1 := by omega
    have fewerNext : maxNesting - (level + 1) < levels := by omega
    refine fits_of_inners derived fewerNext (fits_of_applied applied fewerNext fun descent member => ?_)
    obtain ⟨inside, inOuter, rfl⟩ := List.mem_map.mp member
    exact Descent.Fits.throughInner (room ▸ fits inside inOuter)
end

section Attained

/-- A type with a number of inner levels behind it. -/
def withInners : Nat → TypeExpr → TypeExpr
  | 0, type => type
  | count + 1, type => withInners count (.inner type "I")

/-- A reference with a path as long as some levels allow: on every type that the path goes through,
all levels that are left are inner levels. -/
def deepest : Nat → Nat → TypeExpr
  | 0, _ | 1, _ => .named (.ofPath [] "A")
  | levels + 2, 0 => withInners (levels + 1) (.generic (.named (.ofPath [] "A")) [.anything])
  | levels + 2, steps + 1 =>
    withInners (levels + 1) (.generic (.named (.ofPath [] "A")) [deepest (levels + 1) steps])

/-- The terminals can be written down and scanned again: dots only, and words that are no keywords. -/
def Writable (terminals : List Terminal) : Prop :=
  .separator .dollar ∉ terminals ∧ ∀ word, .word word ∈ terminals → isPlainWord word = true

theorem mem_descents_withInners {descent : Descent} {type : TypeExpr} (member : descent ∈ type.descents)
    (count : Nat) :
    { descent with inners := descent.inners + count } ∈ (withInners count type).descents := by
  induction count generalizing descent type with
  | zero => exact member
  | succ count ih =>
    have next : descent.throughInner ∈ (inner type "I").descents := List.mem_map_of_mem member
    have deeper := ih next
    simp only [Descent.throughInner, Nat.add_assoc, Nat.add_comm 1 count] at deeper
    exact deeper

theorem inners_withInners {level : Nat} (count : Nat) (within : level + count ≤ maxNesting) (outer : TypeExpr) :
    ∃ terminals, Inners level outer terminals (withInners count outer) ∧ Writable terminals := by
  induction count generalizing level outer with
  | zero => exact ⟨[], .done, by simp [Writable]⟩
  | succ count ih =>
    obtain ⟨rest, derived, dots, plain⟩ := ih (by omega : level + 1 + count ≤ maxNesting) (.inner outer "I")
    refine ⟨_, @Inners.next _ _ .dot _ _ _ _ _ (by omega) .plain derived, ?_, ?_⟩
    · simpa using dots
    · have name : isPlainWord "I" = true := by decide +kernel
      intro word member
      simp only [List.cons_append, List.nil_append, List.mem_cons, Terminal.word.injEq, reduceCtorEq,
        false_or] at member
      rcases member with rfl | later
      · exact name
      · exact plain word later

/-- An argument that can be derived one level deeper can be given to a type with all the inner levels
that there is room for. -/
theorem reference_withInners {level count : Nat} {argument : TypeExpr} {terminals : List Terminal}
    (budget : level + 1 + count = maxNesting) (derived : Reference (level + 1) terminals argument)
    (writable : Writable terminals) :
    ∃ written, Reference level written
      (withInners count (.generic (.named (.ofPath [] "A")) [argument])) ∧ Writable written := by
  obtain ⟨levels, inside, dots, plain⟩ :=
    inners_withInners count (Nat.le_of_eq budget) (.generic (.named (.ofPath [] "A")) [argument])
  have ordinary : ([] : List (String × Separator)) = [] → isPrimitiveKeyword "A" = false := by decide
  refine ⟨_, .unbounded (by omega) (.element (.applied ordinary (.last derived) inside)), ?_, ?_⟩
  · simpa [pathTerminals, dots] using writable.1
  · have name : isPlainWord "A" = true := by decide +kernel
    intro word member
    simp only [pathTerminals, List.flatMap_nil, List.nil_append, List.cons_append, List.append_assoc,
      List.mem_cons, List.mem_append, Terminal.word.injEq, reduceCtorEq, false_or] at member
    rcases member with rfl | inArgument | inLevels
    · exact name
    · exact writable.2 word inArgument
    · exact plain word inLevels

theorem reference_deepest : ∀ (levels steps : Nat) {level : Nat}, level + levels = maxNesting → steps < levels →
    ∃ terminals, Reference level terminals (deepest levels steps) ∧ Writable terminals
  | 0, _, _, _, few => absurd few (Nat.not_lt_zero _)
  | 1, _, level, budget, _ => by
    have name : isPlainWord "A" = true := by decide +kernel
    refine ⟨_, .unbounded (by omega) (.element (@ClassType.plain level [] "A")), ?_, ?_⟩
    · simp [pathTerminals]
    · simpa [pathTerminals] using name
  | levels + 2, 0, level, budget, _ =>
    reference_withInners (by omega) (.anything (by omega)) (by simp [Writable])
  | levels + 2, steps + 1, level, budget, few => by
    obtain ⟨terminals, derived, writable⟩ :=
      reference_deepest (levels + 1) steps (by omega : level + 1 + (levels + 1) = maxNesting) (by omega)
    exact reference_withInners (by omega) derived writable

theorem descent_deepest : ∀ (levels steps : Nat), steps < levels →
    ∃ descent ∈ (deepest levels steps).descents,
      descent.arguments = steps ∧ descent.levels = reach levels steps
  | 0, _, few => absurd few (Nat.not_lt_zero _)
  | 1, 0, _ => ⟨⟨0, 0⟩, List.mem_singleton_self _, rfl, rfl⟩
  | 1, _ + 1, few => by omega
  | levels + 2, 0, _ => by
    have head : (⟨0, 0⟩ : Descent) ∈ (generic (.named (.ofPath [] "A")) [.anything]).descents :=
      List.mem_cons_self ..
    refine ⟨_, mem_descents_withInners head (levels + 1), rfl, ?_⟩
    simp only [Descent.levels, reach]
    omega
  | levels + 2, steps + 1, few => by
    obtain ⟨descent, member, counted, long⟩ := descent_deepest (levels + 1) steps (by omega)
    have inArgument : descent.intoArgument ∈
        (generic (.named (.ofPath [] "A")) [deepest (levels + 1) steps]).descents := by
      refine List.mem_append_right _ ?_
      rw [descentsAll, descentsAll, List.append_nil]
      exact List.mem_map_of_mem member
    refine ⟨_, mem_descents_withInners inArgument (levels + 1), ?_, ?_⟩
    · simp only [Descent.intoArgument, counted]
    · simp only [Descent.levels, Descent.intoArgument, reach] at long ⊢
      rw [show levels + 2 - 1 = levels + 1 from rfl, ← long]
      omega

end Attained

/-- What the cap does bound. A path in a reference that was read steps into arguments fewer times
than the cap says, but the inner levels around each of these arguments are on it as well. So it is
sure to keep to the cap only if it steps into no argument, or if no inner level is on it. For every
number of steps there is a reference with a path as long as the bound allows. -/
theorem parse_levels_exact (steps : Nat) :
    (∀ (text : String) (type : TypeExpr), parse text = .ok type →
      ∀ descent ∈ type.descents, descent.arguments = steps →
        steps < maxNesting ∧ descent.levels ≤ reach maxNesting steps ∧
          (steps = 0 ∨ descent.inners = 0 → descent.levels ≤ maxNesting)) ∧
    (steps < maxNesting → ∃ (text : String) (type : TypeExpr), parse text = .ok type ∧
      ∃ descent ∈ type.descents, descent.arguments = steps ∧ descent.levels = reach maxNesting steps) := by
  constructor
  · rintro text type parsed descent member rfl
    obtain ⟨few, within⟩ := fits_of_reference ((parse_eq_ok_iff text type).mp parsed) descent member
    refine ⟨few, within, ?_⟩
    rintro (noArgument | noInner)
    · rwa [noArgument] at within
    · rw [Descent.levels, noInner]
      omega
  · intro few
    obtain ⟨terminals, derived, dots, plain⟩ := reference_deepest maxNesting steps (Nat.zero_add _) few
    exact ⟨_, _, parse_render_of_reference derived dots plain, descent_deepest maxNesting steps few⟩

example : reach maxNesting 0 = 64 ∧ reach maxNesting 1 = 127 ∧ reach maxNesting 63 = 2080 := by decide

/-- The argument was read before the inner levels that now go around it, so together they pass the
cap unnoticed. -/
theorem parse_passes_cap :
    ¬ ∀ (text : String) (type : TypeExpr), parse text = .ok type →
      ∀ descent ∈ type.descents, descent.levels ≤ maxNesting := by
  intro capped
  let text := "A<B>" ++ String.join (List.replicate 63 ".I")
  let type := withInners 63 (.generic (.named (.ofPath [] "A")) [.named (.ofPath [] "B")])
  have parsed : parse text = .ok type := eq_ok_of_toOption (by decide +kernel)
  have around : ⟨1, 63⟩ ∈ type.descents := by decide +kernel
  exact absurd (capped text type parsed ⟨1, 63⟩ around) (by decide)

end ShortNames.TypeExpr
