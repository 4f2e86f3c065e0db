import Mathlib.Data.List.Perm.Basic
import ShortNames.Proofs.DeclarationText
import ShortNames.Proofs.ListingLines
import ShortNames.Proofs.TableLoading

namespace ShortNames

theorem Text.dropReturn_eq_self {line : List Char} (clean : '\r' ∉ line) : dropReturn line = line := by
  unfold dropReturn
  cases found : ['\r'].isSuffixOf? line with
  | none => rfl
  | some rest =>
    rw [← List.isSuffixOf?_eq_some_iff_append_eq.mp found] at clean
    simp at clean

/-- Texts without line breaks are the lines of the text that they make, unless the last is empty. -/
theorem Text.lines_intercalate {texts : List String}
    (clean : ∀ text ∈ texts, '\n' ∉ text.toList ∧ '\r' ∉ text.toList) (ended : texts.getLast? ≠ some "") :
    Text.lines ("\n".intercalate texts) = texts := by
  rcases List.eq_nil_or_concat texts with rfl | ⟨front, last, rfl⟩
  · rfl
  rw [List.concat_eq_append] at clean ended ⊢
  have pieces : ("\n".intercalate (front ++ [last])).toList.splitOn '\n' =
      front.map String.toList ++ [last.toList] := by
    rw [String.toList_intercalate, List.map_append, List.map_singleton]
    refine List.splitOn_intercalate '\n' (fun piece member => ?_) (by simp)
    rw [← List.map_singleton, ← List.map_append] at member
    obtain ⟨text, inTexts, rfl⟩ := List.mem_map.mp member
    exact (clean text inTexts).1
  have whole : (front.map String.toList).map dropReturn = front.map String.toList := by
    rw [List.map_map]
    exact List.map_congr_left fun text member =>
      dropReturn_eq_self (clean text (List.mem_append_left _ member)).2
  have nonempty : last.toList.isEmpty = false := by
    rw [List.getLast?_concat] at ended
    simpa using fun empty => ended (congrArg some empty)
  unfold lines
  simp only [pieces, List.dropLast_concat, List.getLast?_concat, whole, Option.toList_some,
    List.filter_singleton, nonempty, Bool.not_false, cond_true, List.map_append, List.map_map,
    List.map_singleton, String.ofList_toList]
  simp [Function.comp_def]

namespace ImportListing

theorem filterMap_intercalate (paragraphs : List (List Declaration)) :
    ([Line.blank].intercalate (paragraphs.map (·.map .item))).filterMap Line.declaration? =
      paragraphs.flatten := by
  have paragraphOnly (paragraph : List Declaration) :
      (paragraph.map Line.item).filterMap Line.declaration? = paragraph := by
    rw [List.filterMap_map]
    exact List.filterMap_some
  induction paragraphs with
  | nil => rfl
  | cons paragraph rest ih =>
    cases rest with
    | nil =>
      rw [List.map_singleton, List.intercalate_singleton, paragraphOnly, List.flatten_singleton]
    | cons next rest =>
      rw [List.map_cons, List.map_cons, List.intercalate_cons_cons, ← List.map_cons, List.filterMap_append,
        List.filterMap_append, ih, paragraphOnly, List.flatten_cons]
      simp [Line.declaration?]

theorem declarations_eq (listing : ImportListing) :
    listing.declarations = listing.statics.map .ofMember ++ listing.groups.flatten.map .ofType := by
  have statics : (if listing.statics.isEmpty then [] else [listing.statics.map Declaration.ofMember]).flatten =
      listing.statics.map .ofMember := by
    cases listing.statics <;> simp
  rw [declarations, lines, filterMap_intercalate, paragraphs, List.flatten_append, statics, List.map_flatten]

theorem readLines_render {lines : List Line}
    (readable : ∀ declaration, .item declaration ∈ lines → Declaration.parse declaration.render = .ok declaration) :
    ImportTable.readLines (lines.map Line.render) = .ok (lines.filterMap Line.declaration?) := by
  induction lines with
  | nil => rfl
  | cons line rest ih =>
    have others := ih fun declaration member => readable declaration (List.mem_cons_of_mem _ member)
    cases line with
    | blank => exact others
    | item declaration =>
      have solid : declaration.render.toList.all isBlank = false := by
        rw [Declaration.toList_render]
        rfl
      have first := readable declaration (List.mem_cons_self ..)
      unfold ImportTable.readLines at others ⊢
      rw [List.map_cons, List.filter_cons_of_pos (by simp [Line.render, solid]), List.mapM_cons, others,
        Line.render, first]
      rfl

theorem name_of_item {layout : Layout} {table : ImportTable} (wellFormed : table.WellFormed)
    {declaration : Declaration} (member : .item declaration ∈ (ofTable layout table).lines) :
    ∃ (outer : List String) (simple : String), IsDotted (outer ++ [simple]) declaration.name ∧ outer ≠ [] := by
  have declared : declaration ∈ (ofTable layout table).declarations := List.mem_filterMap.mpr ⟨_, member, rfl⟩
  rw [declarations_eq] at declared
  rcases List.mem_append.mp declared with isMember | isType
  · obtain ⟨name, inStatics, rfl⟩ := List.mem_map.mp isMember
    exact wellFormed.staticsNamed name ((statics_ofTable_perm layout table).mem_iff.mp inStatics)
  · obtain ⟨name, inGroups, rfl⟩ := List.mem_map.mp isType
    obtain ⟨entry, inTable, imported, rfl⟩ := ImportTable.entry_of_mem_imports (mem_flatten_groupNames.mp inGroups)
    obtain ⟨outer, spelled⟩ := wellFormed.import_named inTable imported
    exact ⟨outer, entry.simple, spelled⟩

/-- The lines of a listing can be told from its text. -/
theorem lines_render (layout : Layout) {table : ImportTable} (wellFormed : table.WellFormed) :
    Text.lines (ofTable layout table).render = (ofTable layout table).lines.map Line.render := by
  refine Text.lines_intercalate (fun text member => ?_) (fun isLast => ?_)
  · obtain ⟨line, inLines, rfl⟩ := List.mem_map.mp member
    cases line with
    | blank => decide
    | item declaration =>
      obtain ⟨outer, simple, spelled, -⟩ := name_of_item wellFormed inLines
      exact ⟨Declaration.not_mem_render spelled (by decide +kernel) (by decide),
        Declaration.not_mem_render spelled (by decide +kernel) (by decide)⟩
  · rw [List.getLast?_map, Option.map_eq_some_iff] at isLast
    obtain ⟨line, isLast, empty⟩ := isLast
    cases line with
    | blank => exact (spaced_intercalate fun _ member => paragraph_ne_nil member).last isLast
    | item declaration =>
      have text := congrArg String.toList empty
      rw [Line.render, Declaration.toList_render] at text
      cases text

/-- All lines of a listing are read, each as the declaration that it was made from. -/
theorem readLines_ofTable (layout : Layout) {table : ImportTable} (wellFormed : table.WellFormed) :
    ImportTable.readLines (Text.lines (ofTable layout table).render) =
      .ok (ofTable layout table).declarations := by
  rw [lines_render layout wellFormed]
  refine readLines_render fun declaration member => ?_
  obtain ⟨outer, simple, spelled, long⟩ := name_of_item wellFormed member
  exact Declaration.parse_render spelled fun _ => long

/-- A table that holds what a listing shows, in that order, has the same listing. -/
theorem ofTable_eq_of_listed (layout : Layout) {table later : ImportTable} (wellFormed : table.WellFormed)
    (statics : later.statics = (ofTable layout table).statics)
    (imports : later.imports = (ofTable layout table).groups.flatten) :
    ofTable layout later = ofTable layout table := by
  have groups : groupNames layout later.imports = groupNames layout table.imports := by
    rw [imports]
    exact groupNames_flatten layout wellFormed.nodup_imports
  have members : (if layout.sortStatics then sorted later.statics else later.statics) =
      if layout.sortStatics then sorted table.statics else table.statics := by
    rw [statics, ofTable]
    dsimp only
    split
    · exact sorted_eq_of_perm (sorted_perm _)
    · rfl
  rw [ofTable, groups, members]
  rfl

end ImportListing

namespace ImportTable

open ImportListing

theorem WellFormed.listed {table : ImportTable} (wellFormed : table.WellFormed) {entries : List Entry}
    {statics : List String} (sameEntries : entries.Perm (table.entries.filter (·.isImport)))
    (sameStatics : statics.Perm table.statics) : WellFormed ⟨entries, statics⟩ where
  distinct := by
    rw [(sameEntries.map _).nodup_iff]
    exact wellFormed.distinct.sublist (List.filter_sublist.map _)
  named entry member := wellFormed.named entry (List.mem_filter.mp (sameEntries.mem_iff.mp member)).1
  staticsDistinct := sameStatics.nodup_iff.mpr wellFormed.staticsDistinct
  staticsNamed name member := wellFormed.staticsNamed name (sameStatics.mem_iff.mp member)

/-- The empty table takes over everything that a listing shows, in that order. -/
theorem WellFormed.loadAll_listed {table : ImportTable} (wellFormed : table.WellFormed) (layout : Layout) :
    let listing := ofTable layout table
    ∃ fresh : ImportTable,
      (loadAll {} listing.declarations).Gives (table.imports.length + table.statics.length) fresh ∧
        fresh.statics = listing.statics ∧ fresh.imports = listing.groups.flatten := by
  intro listing
  have statics := statics_ofTable_perm layout table
  have perm : listing.groups.flatten.Perm table.imports := flatten_groupNames_perm layout wellFormed.nodup_imports
  -- A listing shows full names only. The entries behind them follow along the permutation.
  have lifted : ∃ entries : List Entry, listing.groups.flatten = entries.map (·.qualified) ∧
      entries.Perm (table.entries.filter (·.isImport)) :=
    (congrFun (congrFun (List.eq_map_comp_perm Entry.qualified) _) _).mpr perm
  obtain ⟨entries, shown, sameEntries⟩ := lifted
  have isImport : ∀ entry ∈ entries, entry.isImport = true := fun entry member =>
    (List.mem_filter.mp (sameEntries.mem_iff.mp member)).2
  have declared : listing.declarations = listing.statics.map .ofMember ++ entries.map (.ofType ·.qualified) := by
    rw [declarations_eq, shown, List.map_map]
    rfl
  have counted : table.imports.length + table.statics.length = entries.length + listing.statics.length := by
    rw [← perm.length_eq, shown, List.length_map, ← statics.length_eq]
  refine ⟨⟨entries, listing.statics⟩, ?_, rfl, ?_⟩
  · rw [declared, counted]
    exact (wellFormed.listed sameEntries statics).loadAll_declared
      fun entry member => Entry.isImport_iff.mp (isImport entry member)
  · rw [imports, List.filter_eq_self.mpr isImport, shown]

/-- A table that is given its own listing learns nothing. -/
theorem WellFormed.loadAll_own {table : ImportTable} (wellFormed : table.WellFormed) (layout : Layout) :
    (table.loadAll (ofTable layout table).declarations).Gives 0 table := by
  refine loadAll_of_known fun declaration member => ?_
  rw [declarations_eq] at member
  rcases List.mem_append.mp member with isMember | isType
  · obtain ⟨name, inStatics, rfl⟩ := List.mem_map.mp isMember
    have known := (statics_ofTable_perm layout table).mem_iff.mp inStatics
    obtain ⟨outer, simple, spelled, long⟩ := wellFormed.staticsNamed name known
    simpa [known] using table.loadOne_ofMember spelled long
  · obtain ⟨name, inGroups, rfl⟩ := List.mem_map.mp isType
    obtain ⟨entry, inTable, imported, rfl⟩ := entry_of_mem_imports (mem_flatten_groupNames.mp inGroups)
    exact loadOne_old wellFormed inTable imported

/-- The text of an import section says all about the imports that it was made from. Loaded into the
empty table it gives back every import and every static import, and in the same layout the same
section. The table that it was made from already knows all of it. -/
theorem Reachable.load_own_listing {table : ImportTable} (reachable : table.Reachable) (layout : Layout) :
    let listing := ofTable layout table
    let fresh := ({} : ImportTable).load (Text.lines listing.render)
    let again := table.load (Text.lines listing.render)
    fresh.result = .ok (table.imports.length + table.statics.length) ∧
      fresh.table.imports.Perm table.imports ∧ fresh.table.statics.Perm table.statics ∧
      ofTable layout fresh.table = listing ∧ again.result = .ok 0 ∧ again.table = table := by
  intro listing fresh again
  have wellFormed := reachable.wellFormed
  have read := readLines_ofTable layout wellFormed
  obtain ⟨later, loaded, statics, imports⟩ := wellFormed.loadAll_listed layout
  obtain ⟨count, after⟩ : fresh.Gives _ later := load_of_readLines read loaded
  obtain ⟨nothing, same⟩ : again.Gives 0 table := load_of_readLines read (wellFormed.loadAll_own layout)
  rw [after]
  refine ⟨count, ?_, ?_, ofTable_eq_of_listed layout wellFormed statics imports, nothing, same⟩
  · rw [imports]
    exact flatten_groupNames_perm layout wellFormed.nodup_imports
  · rw [statics]
    exact statics_ofTable_perm layout table

/-- A package may be called `static`. Names that are held or implicit are not listed. -/
theorem Reachable.load_own_listing_static :
    let chain := Chain.ofUnit (.ofPackage "app")
    let table := ({} : ImportTable).after [.holdName "T", .shorten chain "java.lang.String", .importType "static.X",
      .importType "b.B", .importStatic "z.Z.z", .importStatic "a.A.a"]
    let layout : Layout := { arrangement := .firstUse, sortStatics := false }
    let listing := ofTable layout table
    let fresh := ({} : ImportTable).load (Text.lines listing.render)
    let again := table.load (Text.lines listing.render)
    table.Reachable ∧ table.imports = ["static.X", "b.B"] ∧ table.statics = ["z.Z.z", "a.A.a"] ∧
      fresh.result = .ok 4 ∧ fresh.table.imports.Perm ["static.X", "b.B"] ∧
      fresh.table.statics.Perm ["z.Z.z", "a.A.a"] ∧ ofTable layout fresh.table = listing ∧
      again.result = .ok 0 ∧ again.table = table := by
  intro chain table layout
  have reachable : table.Reachable := Reachable.empty.after (by simp [Operation.IsBuilt])
  have imports : table.imports = ["static.X", "b.B"] := by decide +kernel
  have statics : table.statics = ["z.Z.z", "a.A.a"] := by decide +kernel
  clear_value table
  obtain ⟨count, types, members, kept⟩ := reachable.load_own_listing layout
  rw [imports, statics] at count
  exact ⟨reachable, imports, statics, count, types.trans (.of_eq imports), members.trans (.of_eq statics), kept⟩

end ImportTable

end ShortNames
