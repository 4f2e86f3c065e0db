import ShortNames.Proofs.TableInvariant

namespace ShortNames

/-- An operation succeeds, with an answer and a table after it. -/
def Recorded.Gives {α : Type} (recorded : Recorded (Except Error α)) (answer : α) (later : ImportTable) : Prop :=
  recorded.result = .ok answer ∧ recorded.table = later

theorem Entry.isImport_iff {entry : Entry} : entry.isImport = true ↔ entry.standing = .imported :=
  beq_iff_eq

namespace ImportTable

theorem entry_of_mem_imports {table : ImportTable} {name : String} (member : name ∈ table.imports) :
    ∃ entry ∈ table.entries, entry.standing = .imported ∧ entry.qualified = name := by
  obtain ⟨entry, kept, same⟩ := List.mem_map.mp member
  obtain ⟨inTable, isImport⟩ := List.mem_filter.mp kept
  exact ⟨entry, inTable, Entry.isImport_iff.mp isImport, same⟩

theorem WellFormed.import_named {table : ImportTable} (wellFormed : table.WellFormed) {entry : Entry}
    (member : entry ∈ table.entries) (imported : entry.standing = .imported) :
    ∃ outer : List String, IsDotted (outer ++ [entry.simple]) entry.qualified ∧ outer ≠ [] := by
  obtain ⟨outer, spelled, long⟩ := wellFormed.named entry member
  rw [imported] at long
  exact ⟨outer, spelled, long nofun⟩

theorem loadAll_cons {table next later : ImportTable} {declaration : Declaration} {rest : List Declaration}
    {new : Bool} {count : Nat} (first : (table.loadOne declaration).Gives new next)
    (others : (next.loadAll rest).Gives count later) :
    (table.loadAll (declaration :: rest)).Gives (count + if new then 1 else 0) later := by
  obtain ⟨answer, rfl⟩ := first
  obtain ⟨counted, rfl⟩ := others
  rw [Recorded.Gives, loadAll]
  simp only [answer, counted]
  exact ⟨rfl, trivial⟩

/-- Declarations that bring nothing new one by one bring nothing new all together. -/
theorem loadAll_of_known {table : ImportTable} {declarations : List Declaration}
    (known : ∀ declaration ∈ declarations, (table.loadOne declaration).Gives false table) :
    (table.loadAll declarations).Gives 0 table := by
  induction declarations with
  | nil => exact ⟨rfl, rfl⟩
  | cons declaration rest ih =>
    exact loadAll_cons (known declaration (List.mem_cons_self ..))
      (ih fun other member => known other (List.mem_cons_of_mem _ member))

theorem loadOne_ofMember (table : ImportTable) {outer : List String} {simple name : String}
    (spelled : IsDotted (outer ++ [simple]) name) (long : outer ≠ []) :
    (table.loadOne (.ofMember name)).Gives (decide (name ∉ table.statics))
      (if name ∈ table.statics then table else { table with statics := table.statics ++ [name] }) := by
  obtain ⟨read, parsed, full, -, qualified⟩ := spelled.parse
  change (table.importStatic name).Gives _ _
  unfold Recorded.Gives importStatic
  simp only [parsed, (qualified long).1, full, if_true]
  by_cases known : name ∈ table.statics
  · simp [known, unchanged]
  · simp [known]

/-- Promoting an import changes nothing. No other entry has its simple name. -/
theorem WellFormed.promote_eq_self {table : ImportTable} (wellFormed : table.WellFormed) {entry : Entry}
    (member : entry ∈ table.entries) (imported : entry.standing = .imported) :
    table.promote entry.simple = table := by
  have kept : ∀ other ∈ table.entries,
      (if other.simple = entry.simple then other.promote else other) = id other := by
    intro other inTable
    split
    · rename_i same
      have found := wellFormed.entry?_of_mem inTable
      rw [same, wellFormed.entry?_of_mem member] at found
      rw [← Option.some.inj found, Entry.promote, imported]
      rfl
    · rfl
  rw [promote, List.map_congr_left kept, List.map_id]

/-- A type is loaded as if its name had been bound as an import. -/
theorem loadOne_ofType (table : ImportTable) {outer : List String} {simple qualified : String}
    (spelled : IsDotted (outer ++ [simple]) qualified) (long : outer ≠ []) :
    ∃ name : TypeName, name.simple = simple ∧ name.qualified = qualified ∧
      (table.loadOne (.ofType qualified)).Gives ((table.bind name .imported).result == .added)
        (table.bind name .imported).table := by
  obtain ⟨name, parsed, rfl, rfl, whole⟩ := spelled.parse
  have imported : table.importType name.qualified = (table.bind name .imported).map .ok := by
    unfold importType
    simp only [parsed, (whole long).1, (whole long).2, if_true, Bool.false_eq_true, if_false]
  refine ⟨name, rfl, rfl, ?_⟩
  unfold Recorded.Gives loadOne
  simp only [Declaration.ofType, Bool.false_eq_true, if_false, imported, Recorded.map]
  cases result : (table.bind name .imported).result with
  | added => exact ⟨rfl, rfl⟩
  | present => exact ⟨rfl, rfl⟩
  | taken other => exact ⟨rfl, rfl⟩

theorem loadOne_new {table : ImportTable} {entry : Entry} {outer : List String}
    (spelled : IsDotted (outer ++ [entry.simple]) entry.qualified) (long : outer ≠ [])
    (imported : entry.standing = .imported) (free : table.lookup entry.simple = none) :
    (table.loadOne (.ofType entry.qualified)).Gives true { table with entries := table.entries ++ [entry] } := by
  obtain ⟨name, simple, qualified, gives⟩ := table.loadOne_ofType spelled long
  rw [← simple] at free
  rcases table.bind_cases name .imported with ⟨-, added, entered⟩ | ⟨bound, -⟩ | ⟨other, bound, -⟩
  · rw [added, entered, simple, qualified, ← imported] at gives
    exact gives
  · rw [free] at bound
    cases bound
  · rw [free] at bound
    cases bound

theorem loadOne_old {table : ImportTable} (wellFormed : table.WellFormed) {entry : Entry}
    (member : entry ∈ table.entries) (imported : entry.standing = .imported) :
    (table.loadOne (.ofType entry.qualified)).Gives false table := by
  obtain ⟨outer, spelled, long⟩ := wellFormed.import_named member imported
  obtain ⟨name, simple, qualified, gives⟩ := table.loadOne_ofType spelled long
  have bound := wellFormed.lookup_of_mem member
  rw [← simple, ← qualified] at bound
  rcases table.bind_cases name .imported with ⟨free, -⟩ | ⟨-, present, promoted⟩ | ⟨other, boundToo, differs, -⟩
  · rw [bound] at free
    cases free
  · rw [present, promoted, if_pos rfl, simple, wellFormed.promote_eq_self member imported] at gives
    exact gives
  · rw [bound] at boundToo
    exact absurd (Option.some.inj boundToo).symm differs

/-- New static imports are added one after another, whatever follows them. -/
theorem loadAll_members {table later : ImportTable} {names : List String} {more : List Declaration} {count : Nat}
    (spelled : ∀ name ∈ names, ∃ (outer : List String) (simple : String),
      IsDotted (outer ++ [simple]) name ∧ outer ≠ [])
    (distinct : names.Nodup) (new : ∀ name ∈ names, name ∉ table.statics)
    (others : (loadAll { table with statics := table.statics ++ names } more).Gives count later) :
    (table.loadAll (names.map .ofMember ++ more)).Gives (count + names.length) later := by
  induction names generalizing table with
  | nil => simpa using others
  | cons name rest ih =>
    rw [List.nodup_cons] at distinct
    have unknown := new name (List.mem_cons_self ..)
    obtain ⟨outer, simple, isName, long⟩ := spelled name (List.mem_cons_self ..)
    have first := table.loadOne_ofMember isName long
    rw [decide_eq_true unknown, if_neg unknown] at first
    refine loadAll_cons first (ih (fun other member => spelled other (List.mem_cons_of_mem _ member)) distinct.2 ?_ ?_)
    · intro other member known
      rcases List.mem_append.mp known with old | added
      · exact new other (List.mem_cons_of_mem _ member) old
      · exact distinct.1 (List.mem_singleton.mp added ▸ member)
    · simpa using others

/-- New types are entered one after another. -/
theorem loadAll_entries {table : ImportTable} {entries : List Entry}
    (spelled : ∀ entry ∈ entries, ∃ outer : List String,
      IsDotted (outer ++ [entry.simple]) entry.qualified ∧ outer ≠ [])
    (imported : ∀ entry ∈ entries, entry.standing = .imported)
    (distinct : (entries.map (·.simple)).Nodup) (free : ∀ entry ∈ entries, table.lookup entry.simple = none) :
    (table.loadAll (entries.map (.ofType ·.qualified))).Gives entries.length
      { table with entries := table.entries ++ entries } := by
  induction entries generalizing table with
  | nil => exact ⟨rfl, by rw [List.append_nil]; rfl⟩
  | cons entry rest ih =>
    rw [List.map_cons, List.nodup_cons] at distinct
    obtain ⟨outer, isName, long⟩ := spelled entry (List.mem_cons_self ..)
    have first := loadOne_new isName long (imported entry (List.mem_cons_self ..)) (free entry (List.mem_cons_self ..))
    have stillFree : ∀ other ∈ rest, lookup { table with entries := table.entries ++ [entry] } other.simple = none := by
      intro other member
      have differs : other.simple ≠ entry.simple := fun same => distinct.1 (same ▸ List.mem_map_of_mem member)
      have unbound := free other (List.mem_cons_of_mem _ member)
      rw [lookup_eq_none_iff] at unbound ⊢
      simpa [differs] using unbound
    have others := ih (fun other member => spelled other (List.mem_cons_of_mem _ member))
      (fun other member => imported other (List.mem_cons_of_mem _ member)) distinct.2 stillFree
    rw [List.append_assoc] at others
    exact loadAll_cons first others

/-- A table of imports only is made again by its own declarations. -/
theorem WellFormed.loadAll_declared {entries : List Entry} {statics : List String}
    (wellFormed : WellFormed ⟨entries, statics⟩) (imported : ∀ entry ∈ entries, entry.standing = .imported) :
    (loadAll {} (statics.map .ofMember ++ entries.map (.ofType ·.qualified))).Gives
      (entries.length + statics.length) ⟨entries, statics⟩ := by
  refine loadAll_members wellFormed.staticsNamed wellFormed.staticsDistinct (fun _ _ => List.not_mem_nil) ?_
  exact loadAll_entries (fun entry member => wellFormed.import_named member (imported entry member)) imported
    wellFormed.distinct (fun _ _ => rfl)

theorem load_of_readLines {table later : ImportTable} {lines : List String} {declarations : List Declaration}
    {count : Nat} (read : readLines lines = .ok declarations)
    (loaded : (table.loadAll declarations).Gives count later) : (table.load lines).Gives count later := by
  unfold Recorded.Gives load
  simp only [read, loaded.1]
  exact ⟨trivial, loaded.2⟩

end ImportTable

end ShortNames
