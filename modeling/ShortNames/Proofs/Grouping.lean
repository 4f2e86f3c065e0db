import Mathlib.Data.List.Induction
import Mathlib.Data.List.Nodup
import ShortNames.ImportListing

namespace ShortNames

/-- Without its repetitions a list keeps the order of first occurrences. -/
theorem pairwise_idxOf_eraseDups (keys : List String) :
    keys.eraseDups.Pairwise fun first second => keys.idxOf first < keys.idxOf second := by
  induction keys using List.reverseRecOn with
  | nil => exact .nil
  | append_singleton keys key ih =>
    have inside {other : String} (member : other ∈ keys) : (keys ++ [key]).idxOf other = keys.idxOf other := by
      rw [List.idxOf_append, if_pos member]
    have earlier : keys.eraseDups.Pairwise fun first second =>
        (keys ++ [key]).idxOf first < (keys ++ [key]).idxOf second := by
      refine ih.imp_of_mem fun firstIn secondIn before => ?_
      rwa [inside (List.mem_eraseDups.mp firstIn), inside (List.mem_eraseDups.mp secondIn)]
    rw [List.eraseDups_append]
    by_cases known : key ∈ keys
    · simpa [List.removeAll, known] using earlier
    · have new : ([key].removeAll keys).eraseDups = [key] := by
        simp [List.removeAll, known, List.eraseDups_cons]
      rw [new, List.pairwise_append]
      refine ⟨earlier, List.pairwise_singleton _ _, fun other member last isKey => ?_⟩
      have place := List.idxOf_lt_length_of_mem (List.mem_eraseDups.mp member)
      rw [List.mem_singleton.mp isKey, inside (List.mem_eraseDups.mp member), List.idxOf_append, if_neg known]
      omega

theorem nodup_eraseDups (keys : List String) : keys.eraseDups.Nodup := by
  refine (pairwise_idxOf_eraseDups keys).imp fun before same => ?_
  rw [same] at before
  exact Nat.lt_irrefl _ before

namespace ImportListing

theorem sorted_perm (names : List String) : (sorted names).Perm names :=
  List.mergeSort_perm names _

theorem mem_sorted {names : List String} {name : String} : name ∈ sorted names ↔ name ∈ names :=
  (sorted_perm names).mem_iff

theorem pairwise_sorted (names : List String) : (sorted names).Pairwise (· ≤ ·) := by
  have transitive (first second third : String) (earlier : decide (first ≤ second) = true)
      (later : decide (second ≤ third) = true) : decide (first ≤ third) = true :=
    decide_eq_true (String.le_trans (of_decide_eq_true earlier) (of_decide_eq_true later))
  have total (first second : String) : (decide (first ≤ second) || decide (second ≤ first)) = true := by
    simpa using String.le_total first second
  exact (List.pairwise_mergeSort transitive total names).imp of_decide_eq_true

theorem sorted_eq_self {names : List String} (ascending : names.Pairwise (· ≤ ·)) : sorted names = names :=
  List.mergeSort_of_pairwise (ascending.imp decide_eq_true)

/-- Sorted names no longer tell in which order they were given. -/
theorem sorted_eq_of_perm {names others : List String} (perm : names.Perm others) :
    sorted names = sorted others :=
  List.Perm.eq_of_pairwise (fun _ _ _ _ => String.le_antisymm) (pairwise_sorted names) (pairwise_sorted others)
    ((sorted_perm names).trans (perm.trans (sorted_perm others).symm))

/-- Names that are all different stand in strictly ascending order once they are sorted. -/
theorem ascending_sorted {names : List String} (distinct : names.Nodup) :
    (sorted names).Pairwise (· < ·) := by
  have different : (sorted names).Nodup := (sorted_perm names).nodup_iff.mpr distinct
  exact ((pairwise_sorted names).and different).imp fun both => Std.lt_of_le_of_ne both.1 both.2

end ImportListing

/-- The place of the first package that is the key itself or is followed in the key by a dot. A key
without such a package has its place behind them all. -/
def Arrangement.pinOf (packages : List String) (key : String) : Nat :=
  packages.findIdx fun package => decide (key = package ∨ package.toList ++ ['.'] <+: key.toList)

theorem covers_iff {package key : String} :
    covers package key = true ↔ key = package ∨ package.toList ++ ['.'] <+: key.toList := by
  unfold covers
  cases found : package.toList.isPrefixOf? key.toList with
  | none =>
    have apart (rest : List Char) : package.toList ++ rest ≠ key.toList := by
      intro split
      rw [List.isPrefixOf?_eq_some_iff_append_eq.mpr split] at found
      cases found
    simp only [Bool.false_eq_true, false_iff, not_or]
    refine ⟨fun same => apart [] (by rw [same, List.append_nil]), ?_⟩
    rintro ⟨rest, split⟩
    exact apart ('.' :: rest) (by simpa using split)
  | some rest =>
    have split := List.isPrefixOf?_eq_some_iff_append_eq.mp found
    cases rest with
    | nil =>
      have same : key = package := String.toList_injective (by simpa using split.symm)
      simp [same]
    | cons c rest =>
      have differs : key ≠ package := by
        rintro rfl
        simpa using congrArg List.length split
      simp only [beq_iff_eq, differs, false_or, ← split, List.prefix_append_right_inj]
      simp [eq_comm]

namespace Arrangement

theorem rank_eq_pinOf (packages : List String) (key : String) : rank packages key = pinOf packages key := by
  unfold rank pinOf
  congr 1
  funext package
  rw [Bool.eq_iff_iff, covers_iff, decide_eq_true_iff]

/-- Which of two group keys comes first, if keys were seen in a given order. -/
def Before (order : Arrangement) (seen : List String) (first second : String) : Prop :=
  match order with
  | alphabetical => first < second
  | firstUse => seen.idxOf first < seen.idxOf second
  | pinned packages =>
    pinOf packages first < pinOf packages second ∨
      pinOf packages first = pinOf packages second ∧ first < second

theorem arrange_perm (order : Arrangement) (keys : List String) : (order.arrange keys).Perm keys := by
  cases order with
  | alphabetical => exact List.mergeSort_perm keys _
  | firstUse => exact .refl keys
  | pinned packages => exact List.mergeSort_perm keys _

theorem before_iff {packages : List String} {first second : String} :
    before packages first second = true ↔ pinOf packages first < pinOf packages second ∨
      pinOf packages first = pinOf packages second ∧ first ≤ second := by
  simp [before, rank_eq_pinOf]

theorem before_trans {packages : List String} (first second third : String)
    (earlier : before packages first second = true) (later : before packages second third = true) :
    before packages first third = true := by
  rw [before_iff] at earlier later ⊢
  rcases earlier with lower | ⟨same, below⟩
  · rcases later with lowerToo | ⟨sameToo, _⟩
    · exact .inl (by omega)
    · exact .inl (by omega)
  · rcases later with lowerToo | ⟨sameToo, belowToo⟩
    · exact .inl (by omega)
    · exact .inr ⟨by omega, String.le_trans below belowToo⟩

theorem before_total {packages : List String} (first second : String) :
    (before packages first second || before packages second first) = true := by
  rw [Bool.or_eq_true, before_iff, before_iff]
  rcases Nat.lt_trichotomy (pinOf packages first) (pinOf packages second) with lower | same | higher
  · exact .inl (.inl lower)
  · rcases String.le_total first second with below | above
    · exact .inl (.inr ⟨same, below⟩)
    · exact .inr (.inr ⟨same.symm, above⟩)
  · exact .inr (.inl higher)

theorem before_antisymm {packages : List String} {first second : String}
    (earlier : before packages first second = true) (later : before packages second first = true) :
    first = second := by
  rw [before_iff] at earlier later
  rcases earlier with lower | ⟨same, below⟩
  · omega
  · rcases later with higher | ⟨-, above⟩
    · omega
    · exact String.le_antisymm below above

/-- Arranged keys stand in the order that the arrangement asks for, and no two share a place. -/
theorem pairwise_arrange (order : Arrangement) (seen : List String) :
    (order.arrange seen.eraseDups).Pairwise (order.Before seen) := by
  have different : (order.arrange seen.eraseDups).Nodup :=
    (order.arrange_perm seen.eraseDups).nodup_iff.mpr (nodup_eraseDups seen)
  cases order with
  | alphabetical => exact ImportListing.ascending_sorted (nodup_eraseDups seen)
  | firstUse => exact pairwise_idxOf_eraseDups seen
  | pinned packages =>
    have ordered := List.pairwise_mergeSort (@before_trans packages) (@before_total packages) seen.eraseDups
    refine (ordered.and different).imp fun both => ?_
    exact (before_iff.mp both.1).imp_right fun tied => ⟨tied.1, Std.lt_of_le_of_ne tied.2 both.2⟩

/-- Only by first use does it matter in which order keys were seen. -/
theorem arrange_eq_of_perm {order : Arrangement} {keys others : List String} (other : order ≠ .firstUse)
    (perm : keys.Perm others) : order.arrange keys = order.arrange others := by
  cases order with
  | alphabetical => exact ImportListing.sorted_eq_of_perm perm
  | firstUse => exact absurd rfl other
  | pinned packages =>
    have ordered := List.pairwise_mergeSort (@before_trans packages) (@before_total packages)
    exact List.Perm.eq_of_pairwise (fun _ _ _ _ => before_antisymm) (ordered keys) (ordered others)
      ((List.mergeSort_perm keys _).trans (perm.trans (List.mergeSort_perm others _).symm))

theorem mem_arrange {order : Arrangement} {seen : List String} {key : String} :
    key ∈ order.arrange seen.eraseDups ↔ key ∈ seen := by
  rw [(order.arrange_perm seen.eraseDups).mem_iff, List.mem_eraseDups]

end Arrangement

namespace ImportListing

theorem mem_groupNames {layout : Layout} {names run : List String} :
    run ∈ groupNames layout names ↔
      ∃ key ∈ names.map layout.keyOf, run = sorted (names.filter (layout.keyOf · == key)) := by
  unfold groupNames
  dsimp only
  rw [List.mem_map]
  simp only [Arrangement.mem_arrange, eq_comm]

theorem mem_run {layout : Layout} {names : List String} {key name : String} :
    name ∈ sorted (names.filter (layout.keyOf · == key)) ↔ name ∈ names ∧ layout.keyOf name = key := by
  rw [mem_sorted, List.mem_filter, beq_iff_eq]

theorem run_ne_nil {layout : Layout} {names run : List String} (member : run ∈ groupNames layout names) :
    run ≠ [] := by
  obtain ⟨key, inKeys, rfl⟩ := mem_groupNames.mp member
  obtain ⟨name, inNames, isKey⟩ := List.mem_map.mp inKeys
  exact List.ne_nil_of_mem (mem_run.mpr ⟨inNames, isKey⟩)

/-- Two names are in one group exactly if their keys are the same. -/
theorem together_iff {layout : Layout} {names : List String} {first second : String} (firstIn : first ∈ names)
    (secondIn : second ∈ names) :
    (∃ run ∈ groupNames layout names, first ∈ run ∧ second ∈ run) ↔
      layout.keyOf first = layout.keyOf second := by
  constructor
  · rintro ⟨run, member, inRun, inRunToo⟩
    obtain ⟨key, -, rfl⟩ := mem_groupNames.mp member
    exact (mem_run.mp inRun).2.trans (mem_run.mp inRunToo).2.symm
  · intro same
    refine ⟨_, mem_groupNames.mpr ⟨_, List.mem_map_of_mem secondIn, rfl⟩, ?_, ?_⟩
    · exact mem_run.mpr ⟨firstIn, same⟩
    · exact mem_run.mpr ⟨secondIn, rfl⟩

theorem mem_flatten_groupNames {layout : Layout} {names : List String} {name : String} :
    name ∈ (groupNames layout names).flatten ↔ name ∈ names := by
  rw [List.mem_flatten]
  constructor
  · rintro ⟨run, member, inRun⟩
    obtain ⟨key, -, rfl⟩ := mem_groupNames.mp member
    exact (mem_run.mp inRun).1
  · intro inNames
    obtain ⟨run, member, inRun, -⟩ := (together_iff inNames inNames).mpr rfl
    exact ⟨run, member, inRun⟩

theorem nodup_flatten_groupNames (layout : Layout) {names : List String} (distinct : names.Nodup) :
    (groupNames layout names).flatten.Nodup := by
  rw [List.nodup_flatten]
  constructor
  · intro run member
    obtain ⟨key, -, rfl⟩ := mem_groupNames.mp member
    exact (sorted_perm _).nodup_iff.mpr (distinct.filter _)
  · rw [groupNames, List.pairwise_map]
    have different := ((layout.arrangement.arrange_perm _).nodup_iff.mpr
      (nodup_eraseDups (names.map layout.keyOf)))
    refine different.imp fun differ name inFirst inSecond => ?_
    exact differ ((mem_run.mp inFirst).2.symm.trans (mem_run.mp inSecond).2)

/-- Groups neither lose nor repeat a name. -/
theorem flatten_groupNames_perm (layout : Layout) {names : List String} (distinct : names.Nodup) :
    (groupNames layout names).flatten.Perm names :=
  (List.perm_ext_iff_of_nodup (nodup_flatten_groupNames layout distinct) distinct).mpr
    fun _ => mem_flatten_groupNames

/-- Keys that are read off group by group come in the order of the groups. -/
theorem eraseDups_keys_flatten {keyOf : String → String} {keys : List String} {group : String → List String}
    (distinct : keys.Nodup) (nonempty : ∀ key ∈ keys, group key ≠ [])
    (keyed : ∀ key ∈ keys, ∀ name ∈ group key, keyOf name = key) :
    ((keys.map group).flatten.map keyOf).eraseDups = keys := by
  induction keys with
  | nil => rfl
  | cons key rest ih =>
    rw [List.nodup_cons] at distinct
    have others := ih distinct.2 (fun other member => nonempty other (List.mem_cons_of_mem _ member))
      (fun other member => keyed other (List.mem_cons_of_mem _ member))
    have inGroup := keyed key (List.mem_cons_self ..)
    cases names : group key with
    | nil => exact absurd names (nonempty key (List.mem_cons_self ..))
    | cons first members =>
      rw [names] at inGroup
      -- The first name of the group gives the key. Nothing else in the group does, and nothing behind it loses one.
      have same : (members.map keyOf).filter (!· == key) = [] := by
        simpa using fun name member => inGroup name (List.mem_cons_of_mem _ member)
      have different : ((rest.map group).flatten.map keyOf).filter (!· == key) =
          (rest.map group).flatten.map keyOf := by
        rw [List.filter_eq_self]
        intro other member
        rw [← List.mem_eraseDups, others] at member
        have differs : other ≠ key := fun isKey => distinct.1 (isKey ▸ member)
        simpa using differs
      rw [List.map_cons, names, List.flatten_cons, List.cons_append, List.map_cons, List.map_append,
        inGroup first (List.mem_cons_self ..), List.eraseDups_cons, List.filter_append, same, different,
        List.nil_append, others]

/-- Only by first use does it matter in which order names were seen. -/
theorem arrange_keys_of_perm {layout : Layout} {names others : List String}
    (other : layout.arrangement ≠ .firstUse) (perm : names.Perm others) :
    layout.arrangement.arrange (names.map layout.keyOf).eraseDups =
      layout.arrangement.arrange (others.map layout.keyOf).eraseDups := by
  refine Arrangement.arrange_eq_of_perm other ?_
  rw [List.perm_ext_iff_of_nodup (nodup_eraseDups _) (nodup_eraseDups _)]
  intro key
  rw [List.mem_eraseDups, List.mem_eraseDups]
  exact (perm.map layout.keyOf).mem_iff

theorem arrange_keys_flatten (layout : Layout) {names : List String} (distinct : names.Nodup) :
    layout.arrangement.arrange ((groupNames layout names).flatten.map layout.keyOf).eraseDups =
      layout.arrangement.arrange (names.map layout.keyOf).eraseDups := by
  by_cases byUse : layout.arrangement = .firstUse
  · rw [groupNames, byUse]
    refine eraseDups_keys_flatten (nodup_eraseDups _) (fun key member => ?_) (fun key _ name member => ?_)
    · exact run_ne_nil (mem_groupNames.mpr ⟨key, List.mem_eraseDups.mp member, rfl⟩)
    · exact (mem_run.mp member).2
  · exact arrange_keys_of_perm byUse (flatten_groupNames_perm layout distinct)

/-- Inside a group the order in which names were given is lost. -/
theorem groupNames_congr {layout : Layout} {names others : List String}
    (keys : layout.arrangement.arrange (names.map layout.keyOf).eraseDups =
      layout.arrangement.arrange (others.map layout.keyOf).eraseDups) (perm : names.Perm others) :
    groupNames layout names = groupNames layout others := by
  unfold groupNames
  dsimp only
  rw [keys]
  exact List.map_congr_left fun key _ => sorted_eq_of_perm (perm.filter _)

/-- Names that were put into groups once are in the same groups, and these in the same order, when
that is done again. -/
theorem groupNames_flatten (layout : Layout) {names : List String} (distinct : names.Nodup) :
    groupNames layout (groupNames layout names).flatten = groupNames layout names :=
  groupNames_congr (arrange_keys_flatten layout distinct) (flatten_groupNames_perm layout distinct)

theorem ofTable_eq_of_perm {layout : Layout} {first second : ImportTable}
    (other : layout.arrangement ≠ .firstUse) (imports : first.imports.Perm second.imports)
    (statics : first.statics = second.statics) : ofTable layout first = ofTable layout second := by
  rw [ofTable, ofTable, statics, groupNames_congr (arrange_keys_of_perm other imports) imports]

theorem ascending_run {layout : Layout} {names : List String} (distinct : names.Nodup) {run : List String}
    (member : run ∈ groupNames layout names) : run.Pairwise (· < ·) := by
  obtain ⟨key, -, rfl⟩ := mem_groupNames.mp member
  exact ascending_sorted (distinct.filter _)

end ImportListing

end ShortNames
