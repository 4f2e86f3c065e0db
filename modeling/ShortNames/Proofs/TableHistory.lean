import ShortNames.ImportTable.Load
import ShortNames.Proofs.NameChoice

namespace ShortNames

/-- What a caller can do to a table. Each shortening brings a chain of its own, and any of these
may fail. -/
inductive Operation
  | shorten (chain : Chain) (text : String)
  | shortenType (chain : Chain) (type : TypeExpr)
  | shortenName (chain : Chain) (name : TypeName)
  | importType (text : String)
  | holdName (text : String)
  | importStatic (text : String)
  | load (lines : List String)

/-- The table that an operation leaves behind. -/
def Operation.run (table : ImportTable) : Operation → ImportTable
  | .shorten chain text => (chain.shorten table text).table
  | .shortenType chain type => (chain.shortenType table type).table
  | .shortenName chain name => (chain.shortenName table name).table
  | .importType text => (table.importType text).table
  | .holdName text => (table.holdName text).table
  | .importStatic text => (table.importStatic text).table
  | .load lines => (table.load lines).table

namespace ImportTable

def after (table : ImportTable) (history : List Operation) : ImportTable :=
  history.foldl Operation.run table

/-- The simple names in use with the full names that they stand for, in order of first use. -/
def meanings (table : ImportTable) : List (String × String) :=
  table.entries.map fun entry => (entry.simple, entry.qualified)

/-- The later table only has more behind what the earlier one had. Standings are left out, as an
implicit entry may become an import. -/
structure Grows (earlier later : ImportTable) : Prop where
  meanings : earlier.meanings <+: later.meanings
  statics : earlier.statics <+: later.statics

theorem Grows.refl (table : ImportTable) : table.Grows table :=
  ⟨List.prefix_rfl, List.prefix_rfl⟩

theorem Grows.trans {first second third : ImportTable} (earlier : first.Grows second)
    (later : second.Grows third) : first.Grows third :=
  ⟨earlier.meanings.trans later.meanings, earlier.statics.trans later.statics⟩

theorem lookup_eq_find (table : ImportTable) (simple : String) :
    table.lookup simple = (table.meanings.find? (·.1 == simple)).map (·.2) := by
  simp only [lookup, entry?, meanings, List.find?_map, Option.map_map]
  rfl

/-- A simple name that has a meaning keeps it. -/
theorem Grows.lookup {earlier later : ImportTable} (grown : earlier.Grows later)
    {simple qualified : String} (bound : earlier.lookup simple = some qualified) :
    later.lookup simple = some qualified := by
  rw [lookup_eq_find] at bound ⊢
  obtain ⟨pair, found, rfl⟩ := Option.map_eq_some_iff.mp bound
  rw [grown.meanings.find?_eq_some found]
  rfl

theorem grows_promote (table : ImportTable) (simple : String) : table.Grows (table.promote simple) := by
  have same : (table.promote simple).meanings = table.meanings := by
    simp only [meanings, promote, List.map_map]
    refine List.map_congr_left fun entry _ => ?_
    by_cases found : entry.simple = simple <;> simp [found]
  exact ⟨same ▸ List.prefix_rfl, List.prefix_rfl⟩

theorem grows_append (table : ImportTable) (added : List Entry) :
    table.Grows { table with entries := table.entries ++ added } :=
  ⟨List.prefix_append _ _ |>.map _, List.prefix_rfl⟩

theorem grows_bind (table : ImportTable) (name : TypeName) (standing : Standing) :
    table.Grows (table.bind name standing).table := by
  unfold bind
  cases table.entry? name.simple with
  | none => exact table.grows_append _
  | some existing =>
    dsimp only
    split
    · split
      · exact table.grows_promote name.simple
      · exact .refl table
    · exact .refl table

/-- An import either changes nothing or binds the name that was read. -/
theorem importType_cases (table : ImportTable) (text : String) :
    (∃ answer, table.importType text = table.unchanged answer) ∨
      ∃ name, TypeName.parse text = .ok name ∧ name.isQualified = true ∧
        table.importType text = (table.bind name .imported).map .ok := by
  unfold importType
  cases TypeName.parse text with
  | error error => exact .inl ⟨_, rfl⟩
  | ok name =>
    dsimp only
    split
    · exact .inl ⟨_, rfl⟩
    · split
      · rename_i qualified
        exact .inr ⟨name, rfl, qualified, rfl⟩
      · exact .inl ⟨_, rfl⟩

theorem holdName_cases (table : ImportTable) (text : String) :
    (∃ answer, table.holdName text = table.unchanged answer) ∨
      ∃ name, TypeName.parse text = .ok name ∧ table.holdName text = (table.bind name .held).map .ok := by
  unfold holdName
  cases TypeName.parse text with
  | error error => exact .inl ⟨_, rfl⟩
  | ok name =>
    dsimp only
    split
    · exact .inl ⟨_, rfl⟩
    · exact .inr ⟨name, rfl, rfl⟩

theorem importStatic_cases (table : ImportTable) (text : String) :
    (∃ answer, table.importStatic text = table.unchanged answer) ∨
      ∃ name, TypeName.parse text = .ok name ∧ name.isQualified = true ∧ name.qualified ∉ table.statics ∧
        table.importStatic text =
          { result := .ok true
            table := { table with statics := table.statics ++ [name.qualified] }
            events := [.staticAdded name.qualified] } := by
  unfold importStatic
  cases TypeName.parse text with
  | error error => exact .inl ⟨_, rfl⟩
  | ok name =>
    dsimp only
    split
    · rename_i qualified
      split
      · exact .inl ⟨_, rfl⟩
      · rename_i new
        exact .inr ⟨name, rfl, qualified, new, rfl⟩
    · exact .inl ⟨_, rfl⟩

theorem grows_importType (table : ImportTable) (text : String) :
    table.Grows (table.importType text).table := by
  rcases table.importType_cases text with ⟨_, same⟩ | ⟨name, -, -, bound⟩
  · rw [same]
    exact .refl table
  · rw [bound]
    exact table.grows_bind name .imported

theorem grows_holdName (table : ImportTable) (text : String) :
    table.Grows (table.holdName text).table := by
  rcases table.holdName_cases text with ⟨_, same⟩ | ⟨name, -, bound⟩
  · rw [same]
    exact .refl table
  · rw [bound]
    exact table.grows_bind name .held

theorem grows_importStatic (table : ImportTable) (text : String) :
    table.Grows (table.importStatic text).table := by
  rcases table.importStatic_cases text with ⟨_, same⟩ | ⟨name, -, -, -, added⟩
  · rw [same]
    exact .refl table
  · rw [added]
    exact ⟨List.prefix_rfl, List.prefix_append _ _⟩

theorem grows_loadOne (table : ImportTable) (declaration : Declaration) :
    table.Grows (table.loadOne declaration).table := by
  unfold loadOne
  split
  · exact .refl table
  · split
    · exact table.grows_importStatic declaration.name
    · dsimp only
      split <;> exact table.grows_importType declaration.name

theorem grows_loadAll (table : ImportTable) (declarations : List Declaration) :
    table.Grows (table.loadAll declarations).table := by
  induction declarations generalizing table with
  | nil => exact .refl table
  | cons declaration rest ih =>
    have first := table.grows_loadOne declaration
    unfold loadAll
    dsimp only
    split
    · exact first
    · exact first.trans (ih _)

theorem grows_load (table : ImportTable) (lines : List String) : table.Grows (table.load lines).table := by
  unfold load
  cases readLines lines with
  | error error => exact .refl table
  | ok declarations =>
    dsimp only
    split
    · exact table.grows_loadAll declarations
    · exact .refl table

end ImportTable

namespace Chain

theorem grows_chooseSpelling (chain : Chain) (table : ImportTable) (name : TypeName) :
    table.Grows (chain.chooseSpelling table name).table := by
  rw [chooseSpelling_table]
  split
  · exact table.grows_append _
  · exact .refl table

theorem grows_tableAfter (chain : Chain) (table : ImportTable) (names : List TypeName) :
    table.Grows (chain.tableAfter table names) := by
  induction names generalizing table with
  | nil => exact .refl table
  | cons name rest ih => exact (chain.grows_chooseSpelling table name).trans (ih _)

theorem grows_shortenType (chain : Chain) (table : ImportTable) (type : TypeExpr) :
    table.Grows (chain.shortenType table type).table := by
  rw [shortenType_table]
  exact chain.grows_tableAfter table type.names

theorem grows_shorten (chain : Chain) (table : ImportTable) (text : String) :
    table.Grows (chain.shorten table text).table := by
  unfold shorten
  cases TypeExpr.parse text with
  | error error => exact .refl table
  | ok type => exact chain.grows_shortenType table type

end Chain

/-- No operation takes back or changes what a simple name stands for, whether it succeeds or not. -/
theorem Operation.grows_run (table : ImportTable) (operation : Operation) :
    table.Grows (operation.run table) := by
  cases operation with
  | shorten chain text => exact chain.grows_shorten table text
  | shortenType chain type => exact chain.grows_shortenType table type
  | shortenName chain name => exact chain.grows_chooseSpelling table name
  | importType text => exact table.grows_importType text
  | holdName text => exact table.grows_holdName text
  | importStatic text => exact table.grows_importStatic text
  | load lines => exact table.grows_load lines

theorem ImportTable.grows_after (table : ImportTable) (history : List Operation) :
    table.Grows (table.after history) := by
  induction history generalizing table with
  | nil => exact .refl table
  | cons operation rest ih => exact (operation.grows_run table).trans (ih _)

end ShortNames
