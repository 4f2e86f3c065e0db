import ShortNames.Proofs.Grouping
import ShortNames.Proofs.PassSpecification

namespace ShortNames

/-- What stands before the simple name can be told from the full name. -/
theorem TypeName.qualifier?_eq_of_qualified {first second : TypeName} (qualified : first.isQualified = true)
    (qualifiedToo : second.isQualified = true) (simple : first.simple = second.simple)
    (same : first.qualified = second.qualified) : first.qualifier? = second.qualifier? := by
  simp only [isQualified, Bool.not_eq_true'] at qualified qualifiedToo
  have long : first.enclosing ≠ [] := List.isEmpty_eq_false_iff.mp qualified
  have longToo : second.enclosing ≠ [] := List.isEmpty_eq_false_iff.mp qualifiedToo
  rw [TypeName.qualified, TypeName.qualified, dotted_append long (List.cons_ne_nil first.simple []),
    dotted_append longToo (List.cons_ne_nil second.simple []), simple, String.append_left_inj,
    String.append_left_inj] at same
  simp only [qualifier?, dotted?, qualified, qualifiedToo, same]

theorem ImportTable.imports_perm {first second : ImportTable} (perm : first.entries.Perm second.entries) :
    first.imports.Perm second.imports :=
  (perm.filter _).map _

namespace Chain

/-- No simple name that scopes and table leave open belongs to two different types among the names. -/
def Undisputed (chain : Chain) (table : ImportTable) (names : List TypeName) : Prop :=
  ∀ first ∈ names, ∀ second ∈ names, first.isQualified = true → second.isQualified = true →
    first.simple = second.simple → chain.lookup first.simple = none → table.lookup first.simple = none →
      first.qualified = second.qualified

instance (chain : Chain) (table : ImportTable) (names : List TypeName) :
    Decidable (chain.Undisputed table names) :=
  inferInstanceAs (Decidable (∀ first ∈ names, ∀ second ∈ names, first.isQualified = true →
    second.isQualified = true → first.simple = second.simple → chain.lookup first.simple = none →
      table.lookup first.simple = none → first.qualified = second.qualified))

/-- The entry that a name calls for, as neither scopes nor table decide about its simple name. -/
def CallsFor (chain : Chain) (table : ImportTable) (name : TypeName) (entry : Entry) : Prop :=
  chain.asksTable name = true ∧ table.lookup name.simple = none ∧ chain.entryFor name = entry

theorem asksTable_iff {chain : Chain} {name : TypeName} :
    chain.asksTable name = true ↔ name.isShortenable = true ∧ chain.lookup name.simple = none := by
  simp only [asksTable, Bool.and_eq_true, Option.isNone_iff_eq_none]

theorem isQualified_of_asksTable {chain : Chain} {name : TypeName} (asks : chain.asksTable name = true) :
    name.isQualified = true := by
  have shortenable := (asksTable_iff.mp asks).1
  simp only [TypeName.isShortenable, Bool.and_eq_true] at shortenable
  exact shortenable.1

section Names

variable {chain : Chain} {table : ImportTable} {names others : List TypeName}

/-- After a name was entered, exactly the other simple names that were free still are. -/
theorem lookup_chooseSpelling_eq_none {name : TypeName} (asks : chain.asksTable name = true) {simple : String} :
    (chain.chooseSpelling table name).table.lookup simple = none ↔
      table.lookup simple = none ∧ name.simple ≠ simple := by
  rw [lookup_chooseSpelling, Option.or_eq_none_iff]
  simp [asks]

theorem Undisputed.entryFor_eq (undisputed : chain.Undisputed table names) (byPlace : chain.SeesByPlace)
    {first second : TypeName} (firstIn : first ∈ names) (secondIn : second ∈ names)
    (asks : chain.asksTable first = true) (asksToo : chain.asksTable second = true)
    (simple : first.simple = second.simple) (free : table.lookup first.simple = none) :
    chain.entryFor first = chain.entryFor second := by
  have qualified := isQualified_of_asksTable asks
  have qualifiedToo := isQualified_of_asksTable asksToo
  have same := undisputed first firstIn second secondIn qualified qualifiedToo simple
    (asksTable_iff.mp asks).2 free
  have seen := byPlace.sees_congr (TypeName.qualifier?_eq_of_qualified qualified qualifiedToo simple same)
  rw [entryFor, entryFor, simple, same, seen]

theorem Undisputed.tail {name : TypeName} (undisputed : chain.Undisputed table (name :: names)) :
    chain.Undisputed (chain.chooseSpelling table name).table names := by
  intro first firstIn second secondIn qualified qualifiedToo simple undecided free
  refine undisputed first (List.mem_cons_of_mem _ firstIn) second (List.mem_cons_of_mem _ secondIn)
    qualified qualifiedToo simple undecided ?_
  rw [lookup_chooseSpelling, Option.or_eq_none_iff] at free
  exact free.1

/-- Once a name was entered, others call for what they did before, unless they share its simple name. -/
theorem callsFor_chooseSpelling {name other : TypeName} {entry : Entry} (asks : chain.asksTable name = true) :
    chain.CallsFor (chain.chooseSpelling table name).table other entry ↔
      chain.CallsFor table other entry ∧ name.simple ≠ other.simple := by
  simp only [CallsFor, lookup_chooseSpelling_eq_none asks, and_assoc]
  exact and_congr_right fun _ => and_congr_right fun _ => and_comm

/-- What a new name and others call for is the entry of that name, and what the others call for after it. -/
theorem Undisputed.callsFor_cons {name : TypeName} (undisputed : chain.Undisputed table (name :: names))
    (byPlace : chain.SeesByPlace) (asks : chain.asksTable name = true) (free : table.lookup name.simple = none)
    (entry : Entry) :
    (∃ other ∈ name :: names, chain.CallsFor table other entry) ↔
      entry = chain.entryFor name ∨
        ∃ other ∈ names, chain.CallsFor (chain.chooseSpelling table name).table other entry := by
  simp only [callsFor_chooseSpelling asks]
  constructor
  · rintro ⟨other, member, calls⟩
    -- A later name with this simple name calls for the same entry. This is where a dispute would show.
    by_cases simple : name.simple = other.simple
    · obtain ⟨asksToo, -, rfl⟩ := calls
      exact .inl (undisputed.entryFor_eq byPlace (List.mem_cons_self ..) member asks asksToo simple free).symm
    · have inRest : other ∈ names := (List.mem_cons.mp member).resolve_left fun same => simple (same ▸ rfl)
      exact .inr ⟨other, inRest, calls, simple⟩
  · rintro (rfl | ⟨other, inRest, calls, -⟩)
    · exact ⟨name, List.mem_cons_self .., asks, free, rfl⟩
    · exact ⟨other, List.mem_cons_of_mem _ inRest, calls⟩

/-- Names that do not dispute a simple name add the entries that they call for, in whichever order
they come, and each of these once. -/
theorem Undisputed.added (undisputed : chain.Undisputed table names) (byPlace : chain.SeesByPlace) :
    ∃ added : List Entry, chain.tableAfter table names = { table with entries := table.entries ++ added } ∧
      (added.map (·.simple)).Nodup ∧ ∀ entry, entry ∈ added ↔ ∃ name ∈ names, chain.CallsFor table name entry := by
  induction names generalizing table with
  | nil => exact ⟨[], by simp, List.nodup_nil, by simp⟩
  | cons name rest ih =>
    -- What the rest calls for is said about the table after the first name, so that is where it is counted.
    obtain ⟨added, after, distinct, called⟩ := ih undisputed.tail
    rw [tableAfter_cons, after]
    by_cases new : chain.asksTable name = true ∧ table.lookup name.simple = none
    · obtain ⟨asks, free⟩ := new
      refine ⟨chain.entryFor name :: added, ?_, ?_, fun entry => ?_⟩
      · rw [chooseSpelling_table, if_pos ⟨asks, free⟩, List.append_assoc]
        rfl
      · rw [List.map_cons, List.nodup_cons]
        refine ⟨fun again => ?_, distinct⟩
        obtain ⟨entry, member, simple⟩ := List.mem_map.mp again
        obtain ⟨other, -, calls⟩ := (called entry).mp member
        obtain ⟨⟨-, -, rfl⟩, differs⟩ := (callsFor_chooseSpelling asks).mp calls
        exact differs simple.symm
      · rw [List.mem_cons, called, undisputed.callsFor_cons byPlace asks free]
    · have silent (entry : Entry) : ¬ chain.CallsFor table name entry := fun calls => new ⟨calls.1, calls.2.1⟩
      rw [chooseSpelling_table, if_neg new] at called ⊢
      refine ⟨added, rfl, distinct, fun entry => ?_⟩
      rw [called, List.exists_mem_cons_iff, or_iff_right (silent entry)]

theorem Undisputed.perm (undisputed : chain.Undisputed table names) (perm : names.Perm others) :
    chain.Undisputed table others :=
  fun first firstIn second secondIn =>
    undisputed first (perm.mem_iff.mpr firstIn) second (perm.mem_iff.mpr secondIn)

theorem Undisputed.tableAfter_perm (undisputed : chain.Undisputed table names) (byPlace : chain.SeesByPlace)
    (perm : names.Perm others) :
    (chain.tableAfter table names).entries.Perm (chain.tableAfter table others).entries := by
  obtain ⟨added, after, distinct, called⟩ := undisputed.added byPlace
  obtain ⟨addedToo, afterToo, distinctToo, calledToo⟩ := (undisputed.perm perm).added byPlace
  have same : added.Perm addedToo := by
    rw [List.perm_ext_iff_of_nodup (List.Nodup.of_map _ distinct) (List.Nodup.of_map _ distinctToo)]
    intro entry
    rw [called, calledToo]
    simp only [perm.mem_iff]
  rw [after, afterToo]
  exact same.append_left table.entries

/-- The first use of an open simple name may be another one, but it is a use by the same type. -/
theorem Undisputed.firstUse?_perm (undisputed : chain.Undisputed table names) (perm : names.Perm others)
    {simple : String} (undecided : chain.lookup simple = none) (free : table.lookup simple = none) :
    (TypeName.firstUse? names simple).map (·.qualified) = (TypeName.firstUse? others simple).map (·.qualified) := by
  unfold TypeName.firstUse?
  cases found : names.find? fun name => name.isShortenable && name.simple == simple with
  | none =>
    have absent : others.find? (fun name => name.isShortenable && name.simple == simple) = none := by
      rw [List.find?_eq_none] at found ⊢
      exact fun name member => found name (perm.mem_iff.mpr member)
    rw [absent]
  | some first =>
    have inNames := List.mem_of_find?_eq_some found
    have isFirst := List.find?_some found
    cases foundToo : others.find? fun name => name.isShortenable && name.simple == simple with
    | none => exact absurd isFirst (List.find?_eq_none.mp foundToo first (perm.mem_iff.mp inNames))
    | some second =>
      have inNamesToo := perm.mem_iff.mpr (List.mem_of_find?_eq_some foundToo)
      have isSecond := List.find?_some foundToo
      simp only [TypeName.isShortenable, Bool.and_eq_true, beq_iff_eq] at isFirst isSecond
      obtain ⟨⟨qualified, -⟩, rfl⟩ := isFirst
      exact congrArg some (undisputed first inNames second inNamesToo qualified isSecond.1.1
        isSecond.2.symm undecided free)

theorem Undisputed.spell_perm (undisputed : chain.Undisputed table names) (perm : names.Perm others) :
    chain.spell (chain.tableAfter table names) = chain.spell (chain.tableAfter table others) := by
  have means (simple : String) : chain.meaning (chain.tableAfter table names) simple =
      chain.meaning (chain.tableAfter table others) simple := by
    unfold meaning
    cases undecided : chain.lookup simple with
    | some found => rfl
    | none =>
      rw [lookup_tableAfter chain table names undecided, lookup_tableAfter chain table others undecided]
      cases free : table.lookup simple with
      | some found => rfl
      | none => rw [undisputed.firstUse?_perm perm undecided free]
  funext name
  rw [spell, spell, writesInFull, writesInFull, means]

end Names

theorem statics_tableAfter (chain : Chain) (table : ImportTable) (names : List TypeName) :
    (chain.tableAfter table names).statics = table.statics := by
  rw [tableAfter_eq_append]

/-- Without a dispute about a simple name the order of references does not matter. In any order each
reference gets the same text and no static import is added. If scopes see types by where they are
declared, the table also holds the same entries in the end, and unless groups go by first use the lines
of the import section are the same. -/
theorem shortenAll_order_independent (chain : Chain) (table : ImportTable) (types others : List TypeExpr)
    (perm : types.Perm others) (undisputed : chain.Undisputed table (TypeExpr.namesAll types)) :
    let run := chain.shortenAll table types
    let rerun := chain.shortenAll table others
    (∃ text : TypeExpr → String, run.result = types.map text ∧ rerun.result = others.map text) ∧
      run.table.statics = table.statics ∧ rerun.table.statics = table.statics ∧
      (chain.SeesByPlace → run.table.entries.Perm rerun.table.entries ∧
        ∀ layout : Layout, layout.arrangement ≠ .firstUse →
          (ImportListing.ofTable layout run.table).lines = (ImportListing.ofTable layout rerun.table).lines) := by
  intro run rerun
  have names : (TypeExpr.namesAll types).Perm (TypeExpr.namesAll others) := by
    rw [TypeExpr.namesAll_eq_flatMap, TypeExpr.namesAll_eq_flatMap]
    exact perm.flatMap_right _
  have after : run.table = chain.tableAfter table (TypeExpr.namesAll types) := chain.shortenAll_table table types
  have afterToo : rerun.table = chain.tableAfter table (TypeExpr.namesAll others) :=
    chain.shortenAll_table table others
  have spelled : chain.spell rerun.table = chain.spell run.table := by
    rw [after, afterToo, undisputed.spell_perm names]
  have statics : run.table.statics = table.statics := by rw [after, statics_tableAfter]
  have staticsToo : rerun.table.statics = table.statics := by rw [afterToo, statics_tableAfter]
  refine ⟨⟨TypeExpr.renderWith (chain.spell run.table), ?_, ?_⟩, statics, staticsToo, fun byPlace => ?_⟩
  · rw [← TypeExpr.renderAllWith_eq_map]
    exact chain.shortenAll_result run.table types table (.refl _)
  · rw [← TypeExpr.renderAllWith_eq_map, ← spelled]
    exact chain.shortenAll_result rerun.table others table (.refl _)
  · have entries : run.table.entries.Perm rerun.table.entries := by
      rw [after, afterToo]
      exact undisputed.tableAfter_perm byPlace names
    refine ⟨entries, fun layout other => ?_⟩
    rw [ImportListing.ofTable_eq_of_perm other (ImportTable.imports_perm entries) (statics.trans staticsToo.symm)]

/-- Two types are called `Date`, but the table decides for a third. In reverse it is another
reference that enters `List`, before `Map`, and the tables differ in their order. The types of
`java.io` are seen by a foreign scope. -/
theorem shortenAll_order_independent_dates :
    let scope : ForeignScope := { lookup := fun _ => none, sees := (·.isDirectlyIn "java.io") }
    let chain := (Chain.ofUnit (.ofPackage "app")).push (.foreign scope)
    let table : ImportTable := ⟨[⟨"Date", "app.Date", .held⟩], ["app.Run.main"]⟩
    let java (package simple : String) : TypeExpr := .named (.ofPath [("java", .dot), (package, .dot)] simple)
    let types := [.generic (java "util" "Map") [java "util" "Date", java "util" "List"], java "sql" "Date",
      java "util" "List", java "io" "File"]
    chain.Undisputed table (TypeExpr.namesAll types) ∧ chain.SeesByPlace ∧
      (chain.shortenAll table types).result = ["Map<java.util.Date,List>", "java.sql.Date", "List", "File"] ∧
      (chain.shortenAll table types.reverse).result = ["File", "List", "java.sql.Date", "Map<java.util.Date,List>"] ∧
      (chain.shortenAll table types).table ≠ (chain.shortenAll table types.reverse).table ∧
      (chain.shortenAll table types).table.imports = ["java.util.Map", "java.util.List"] ∧
      (ImportListing.ofTable {} (chain.shortenAll table types).table).lines =
        (ImportListing.ofTable {} (chain.shortenAll table types.reverse).table).lines := by
  intro scope chain table java types
  have undisputed : chain.Undisputed table (TypeExpr.namesAll types) := by decide +kernel
  have byPlace : chain.SeesByPlace := seesByPlace_of_place fun _ _ same => by
    simp only [scope, TypeName.isDirectlyIn, same]
  have written : (chain.shortenAll table types).result =
      ["Map<java.util.Date,List>", "java.sql.Date", "List", "File"] := by decide +kernel
  obtain ⟨⟨text, result, again⟩, -, -, sameEffect⟩ :=
    shortenAll_order_independent chain table types types.reverse types.reverse_perm.symm undisputed
  refine ⟨undisputed, byPlace, written, ?_, by decide +kernel, by decide +kernel, (sameEffect byPlace).2 {} (by decide)⟩
  rw [again, List.map_reverse, ← result, written]
  rfl

end Chain

end ShortNames
