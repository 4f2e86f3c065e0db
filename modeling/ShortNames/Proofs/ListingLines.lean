import Mathlib.Data.List.Chain
import ShortNames.Proofs.Grouping
import ShortNames.Proofs.TableInvariant

namespace ShortNames

namespace ImportTable

/-- No type is imported twice: its simple name can be told from its full name. -/
theorem WellFormed.nodup_imports {table : ImportTable} (wellFormed : table.WellFormed) :
    table.imports.Nodup := by
  refine List.Nodup.map_on (fun first firstIn second secondIn same => ?_)
    ((List.Nodup.of_map _ wellFormed.distinct).filter _)
  have firstEntry := (List.mem_filter.mp firstIn).1
  have secondEntry := (List.mem_filter.mp secondIn).1
  obtain ⟨outer, ⟨spelled, written⟩, -⟩ := wellFormed.named first firstEntry
  obtain ⟨other, ⟨spelledToo, writtenToo⟩, -⟩ := wellFormed.named second secondEntry
  have simple := (TypeName.dotted_inj written writtenToo (spelled.symm.trans (same.trans spelledToo))).2
  have found := wellFormed.entry?_of_mem firstEntry
  rw [simple, wellFormed.entry?_of_mem secondEntry] at found
  exact (Option.some.inj found).symm

/-- The place in the table of the first of some imports. -/
def placeOf (table : ImportTable) (names : List String) : Nat :=
  table.entries.findIdx fun entry => entry.isImport && names.contains entry.qualified

end ImportTable

namespace ImportListing

/-- Leaving out some items does not change which of two others comes first. -/
theorem findIdx_lt_of_filter {α : Type} {kept first second : α → Bool} {items : List α}
    (before : (items.filter kept).findIdx first < (items.filter kept).findIdx second) :
    (items.findIdx fun item => kept item && first item) <
      items.findIdx fun item => kept item && second item := by
  induction items with
  | nil => cases before
  | cons item rest ih =>
    cases isKept : kept item with
    | false =>
      rw [List.filter_cons_of_neg (by simp [isKept])] at before
      simpa [List.findIdx_cons, isKept] using ih before
    | true =>
      rw [List.filter_cons_of_pos isKept, List.findIdx_cons, List.findIdx_cons] at before
      rw [List.findIdx_cons, List.findIdx_cons, isKept, Bool.true_and, Bool.true_and]
      cases isFirst : first item with
      | true =>
        cases isSecond : second item with
        | true => simp [isSecond] at before
        | false => exact Nat.zero_lt_succ _
      | false =>
        cases isSecond : second item with
        | true => simp [isSecond] at before
        | false =>
          rw [isFirst, isSecond] at before
          exact Nat.succ_lt_succ (ih (Nat.lt_of_succ_lt_succ before))

/-- Which of two groups of imports comes first. -/
def Precedes (layout : Layout) (table : ImportTable) (earlier later : List String) : Prop :=
  match layout.arrangement with
  | .alphabetical => ∀ first ∈ earlier, ∀ second ∈ later, layout.keyOf first < layout.keyOf second
  | .firstUse => table.placeOf earlier < table.placeOf later
  | .pinned packages => ∀ first ∈ earlier, ∀ second ∈ later,
      let pin := Arrangement.pinOf packages (layout.keyOf first)
      let other := Arrangement.pinOf packages (layout.keyOf second)
      pin < other ∨ pin = other ∧ layout.keyOf first < layout.keyOf second

/-- All that an import section promises of its static imports and of its groups of other imports. -/
structure Arranged (layout : Layout) (table : ImportTable) (statics : List String)
    (groups : List (List String)) : Prop where
  members : if layout.sortStatics then statics.Perm table.statics ∧ statics.Pairwise (· < ·)
    else statics = table.statics
  membersOnce : statics.Nodup
  types : groups.flatten.Perm table.imports
  typesOnce : groups.flatten.Nodup
  nonempty : ∀ group ∈ groups, group ≠ []
  together : ∀ first ∈ table.imports, ∀ second ∈ table.imports,
    (∃ group ∈ groups, first ∈ group ∧ second ∈ group) ↔ layout.keyOf first = layout.keyOf second
  ascending : ∀ group ∈ groups, group.Pairwise (· < ·)
  ordered : groups.Pairwise (Precedes layout table)

theorem placeOf_run (layout : Layout) (table : ImportTable) (key : String) :
    table.placeOf (sorted (table.imports.filter (layout.keyOf · == key))) =
      table.entries.findIdx fun entry => entry.isImport && layout.keyOf entry.qualified == key := by
  have same : ∀ entry ∈ table.entries,
      (entry.isImport && (sorted (table.imports.filter (layout.keyOf · == key))).contains entry.qualified) = true ↔
        (entry.isImport && layout.keyOf entry.qualified == key) = true := by
    intro entry member
    rw [Bool.and_eq_true, Bool.and_eq_true, List.contains_iff_mem, mem_run, beq_iff_eq]
    constructor
    · rintro ⟨isImport, -, isKey⟩
      exact ⟨isImport, isKey⟩
    · rintro ⟨isImport, isKey⟩
      exact ⟨isImport, List.mem_map_of_mem (List.mem_filter.mpr ⟨member, isImport⟩), isKey⟩
  exact Nat.le_antisymm (List.findIdx_le_findIdx fun entry member => (same entry member).mpr)
    (List.findIdx_le_findIdx fun entry member => (same entry member).mp)

/-- Groups stand in the order of their keys, read as an order of their members. -/
theorem precedes_of_before {layout : Layout} {table : ImportTable} {first second : String}
    (before : layout.arrangement.Before (table.imports.map layout.keyOf) first second) :
    Precedes layout table (sorted (table.imports.filter (layout.keyOf · == first)))
      (sorted (table.imports.filter (layout.keyOf · == second))) := by
  unfold Precedes
  unfold Arrangement.Before at before
  cases arrangement : layout.arrangement with
  | alphabetical =>
    rw [arrangement] at before
    intro one inFirst other inSecond
    rw [(mem_run.mp inFirst).2, (mem_run.mp inSecond).2]
    exact before
  | firstUse =>
    rw [arrangement] at before
    simp only [List.idxOf, ImportTable.imports, List.map_map, List.findIdx_map] at before
    simp only [placeOf_run]
    exact findIdx_lt_of_filter before
  | pinned packages =>
    rw [arrangement] at before
    intro one inFirst other inSecond
    rw [(mem_run.mp inFirst).2, (mem_run.mp inSecond).2]
    exact before

theorem statics_ofTable_perm (layout : Layout) (table : ImportTable) :
    (ofTable layout table).statics.Perm table.statics := by
  unfold ofTable
  dsimp only
  split
  · exact sorted_perm _
  · exact .refl _

theorem arranged_ofTable (layout : Layout) {table : ImportTable} (wellFormed : table.WellFormed) :
    Arranged layout table (ofTable layout table).statics (ofTable layout table).groups where
  members := by
    unfold ofTable
    split
    · exact ⟨sorted_perm _, ascending_sorted wellFormed.staticsDistinct⟩
    · rfl
  membersOnce := (statics_ofTable_perm layout table).nodup_iff.mpr wellFormed.staticsDistinct
  types := flatten_groupNames_perm layout wellFormed.nodup_imports
  typesOnce := nodup_flatten_groupNames layout wellFormed.nodup_imports
  nonempty _ member := run_ne_nil member
  together _ firstIn _ secondIn := together_iff firstIn secondIn
  ascending _ member := ascending_run wellFormed.nodup_imports member
  ordered := List.pairwise_map.mpr ((layout.arrangement.pairwise_arrange _).imp precedes_of_before)

/-- Blank lines stand between other lines only, and one at a time. -/
structure Spaced (lines : List Line) : Prop where
  first : lines.head? ≠ some .blank
  last : lines.getLast? ≠ some .blank
  apart : lines.IsChain fun line next => line = .blank → next ≠ .blank

theorem spaced_paragraph {declarations : List Declaration} : Spaced (declarations.map .item) where
  first found := by simpa using List.mem_of_head? found
  last found := by simpa using List.mem_of_getLast? found
  apart := by
    refine List.Pairwise.isChain (List.pairwise_map.mpr ?_)
    exact List.pairwise_of_forall fun _ _ => nofun

theorem Spaced.append {above below : List Line} (spaced : Spaced above) (spacedToo : Spaced below)
    (nonempty : above ≠ []) (nonemptyToo : below ≠ []) : Spaced (above ++ [.blank] ++ below) where
  first := by
    rw [List.append_assoc, List.head?_append_of_ne_nil _ nonempty]
    exact spaced.first
  last := by
    rw [List.getLast?_append_of_ne_nil _ nonemptyToo]
    exact spacedToo.last
  apart := by
    rw [List.isChain_append, List.isChain_append]
    refine ⟨⟨spaced.apart, List.isChain_singleton _, ?_⟩, spacedToo.apart, ?_⟩
    · rintro line isLast next - rfl
      exact absurd isLast spaced.last
    · rintro line - next isFirst - rfl
      exact absurd isFirst spacedToo.first

theorem intercalate_ne_nil {paragraphs : List (List Declaration)}
    (nonempty : ∀ paragraph ∈ paragraphs, paragraph ≠ []) (some : paragraphs ≠ []) :
    [Line.blank].intercalate (paragraphs.map (·.map .item)) ≠ [] := by
  cases paragraphs with
  | nil => exact absurd rfl some
  | cons paragraph rest =>
    have first : paragraph.map Line.item ≠ [] := by
      simpa using nonempty paragraph (List.mem_cons_self ..)
    cases rest with
    | nil => simpa using first
    | cons next rest =>
      rw [List.map_cons, List.map_cons, List.intercalate_cons_cons]
      simp

theorem spaced_intercalate {paragraphs : List (List Declaration)}
    (nonempty : ∀ paragraph ∈ paragraphs, paragraph ≠ []) :
    Spaced ([Line.blank].intercalate (paragraphs.map (·.map .item))) := by
  induction paragraphs with
  | nil => exact @spaced_paragraph []
  | cons paragraph rest ih =>
    have others : ∀ other ∈ rest, other ≠ [] := fun other member => nonempty other (List.mem_cons_of_mem _ member)
    cases rest with
    | nil =>
      rw [List.map_singleton, List.intercalate_singleton]
      exact spaced_paragraph
    | cons next rest =>
      rw [List.map_cons, List.map_cons, List.intercalate_cons_cons, ← List.map_cons]
      refine spaced_paragraph.append (ih others) ?_ (intercalate_ne_nil others (List.cons_ne_nil _ _))
      simpa using nonempty paragraph (List.mem_cons_self ..)

/-- The lines of a section: the static imports, the groups, and a blank line wherever two of these
meet. -/
theorem lines_eq (listing : ImportListing) :
    listing.lines = listing.statics.map (.item ∘ .ofMember) ++
      (if listing.statics = [] ∨ listing.groups = [] then [] else [.blank]) ++
      [.blank].intercalate (listing.groups.map (·.map (.item ∘ .ofType))) := by
  have groups : (listing.groups.map (·.map Declaration.ofType)).map (·.map Line.item) =
      listing.groups.map (·.map (.item ∘ .ofType)) := by
    simp [Function.comp_def]
  unfold lines paragraphs
  by_cases noStatics : listing.statics = []
  · simp [noStatics, groups]
  · by_cases noGroups : listing.groups = []
    · simp [noStatics, noGroups]
    · have others : listing.groups.map (·.map (Line.item ∘ Declaration.ofType)) ≠ [] := by simpa using noGroups
      rw [if_neg (by simpa using noStatics), if_neg (not_or.mpr ⟨noStatics, noGroups⟩), List.singleton_append,
        List.map_cons, groups, List.intercalate_cons_of_ne_nil others, List.map_map]

theorem paragraph_ne_nil {layout : Layout} {table : ImportTable} {paragraph : List Declaration}
    (member : paragraph ∈ (ofTable layout table).paragraphs) : paragraph ≠ [] := by
  rcases List.mem_append.mp member with isStatics | isGroup
  · split at isStatics
    · cases isStatics
    · rename_i some
      rw [List.mem_singleton.mp isStatics]
      simpa using some
  · obtain ⟨group, inGroups, rfl⟩ := List.mem_map.mp isGroup
    simpa using run_ne_nil inGroups

end ImportListing

namespace ImportTable

open ImportListing

/-- The import section of a table that can come about, in whatever layout. The static imports come
first, then the other imports group by group, each as a declaration of its name that is not on demand.
None is lost or repeated, groups are told apart by their keys, and the order within and between groups
is that of the layout. Blank lines stand exactly between these parts. -/
theorem Reachable.lines_arranged {table : ImportTable} (reachable : table.Reachable) (layout : Layout) :
    let listing := ofTable layout table
    Arranged layout table listing.statics listing.groups ∧
      listing.lines =
        listing.statics.map (fun name => .item { name := name, isStatic := true, onDemand := false }) ++
        (if listing.statics = [] ∨ listing.groups = [] then [] else [.blank]) ++
        [.blank].intercalate (listing.groups.map fun group =>
          group.map fun name => .item { name := name, isStatic := false, onDemand := false }) ∧
      Spaced listing.lines := by
  intro listing
  exact ⟨arranged_ofTable layout reachable.wellFormed, listing.lines_eq,
    spaced_intercalate fun _ member => paragraph_ne_nil member⟩

/-- A depth of zero still tells `com` from `org`, and `org.a` from `org.b` not. -/
theorem Reachable.lines_arranged_pinned :
    let table := ({} : ImportTable).after [.importType "org.b.B", .importType "com.x.C",
      .importType "org.a.A", .importStatic "z.Z.z", .importStatic "a.A.a"]
    let layout : Layout := { depth := 0, arrangement := .pinned ["", "org", "org"], sortStatics := false }
    let listing := ofTable layout table
    table.Reachable ∧ table.imports = ["org.b.B", "com.x.C", "org.a.A"] ∧ table.statics = ["z.Z.z", "a.A.a"] ∧
      Arranged layout table listing.statics listing.groups ∧
      listing.lines = [.item ⟨"z.Z.z", true, false⟩, .item ⟨"a.A.a", true, false⟩, .blank,
        .item ⟨"org.a.A", false, false⟩, .item ⟨"org.b.B", false, false⟩, .blank, .item ⟨"com.x.C", false, false⟩] ∧
      Spaced listing.lines ∧
      (∃ group ∈ listing.groups, "org.b.B" ∈ group ∧ "org.a.A" ∈ group) ∧
      ¬ ∃ group ∈ listing.groups, "org.b.B" ∈ group ∧ "com.x.C" ∈ group := by
  intro table layout listing
  have reachable : table.Reachable := Reachable.empty.after (by simp [Operation.IsBuilt])
  have imports : table.imports = ["org.b.B", "com.x.C", "org.a.A"] := by decide +kernel
  have statics : table.statics = ["z.Z.z", "a.A.a"] := by decide +kernel
  have groups : listing.groups = [["org.a.A", "org.b.B"], ["com.x.C"]] := by
    have keys : layout.arrangement.arrange (["org.b.B", "com.x.C", "org.a.A"].map layout.keyOf).eraseDups =
        ["org", "com"] := by
      rw [show (["org.b.B", "com.x.C", "org.a.A"].map layout.keyOf).eraseDups = ["org", "com"] by decide +kernel]
      exact List.mergeSort_of_pairwise (by decide +kernel)
    have inOrg : ["org.b.B", "com.x.C", "org.a.A"].filter (layout.keyOf · == "org") = ["org.b.B", "org.a.A"] := by
      decide +kernel
    have inCom : ["org.b.B", "com.x.C", "org.a.A"].filter (layout.keyOf · == "com") = ["com.x.C"] := by
      decide +kernel
    have inOrder : sorted ["org.b.B", "org.a.A"] = ["org.a.A", "org.b.B"] :=
      (sorted_eq_of_perm (.swap ..)).trans (sorted_eq_self (by decide +kernel))
    change groupNames layout table.imports = _
    rw [imports, groupNames, keys]
    simp only [List.map_cons, List.map_nil, inOrg, inCom, inOrder, sorted_eq_self (List.pairwise_singleton ..)]
  have same : layout.keyOf "org.b.B" = layout.keyOf "org.a.A" := by decide +kernel
  have differ : layout.keyOf "org.b.B" ≠ layout.keyOf "com.x.C" := by decide +kernel
  obtain ⟨arranged, lines, spaced⟩ := reachable.lines_arranged layout
  have together := arranged.together
  rw [imports] at together
  rw [show listing.statics = ["z.Z.z", "a.A.a"] from statics, groups] at lines
  exact ⟨reachable, imports, statics, arranged, lines, spaced, (together _ (by simp) _ (by simp)).mpr same,
    fun joined => differ ((together _ (by simp) _ (by simp)).mp joined)⟩

end ImportTable

end ShortNames
