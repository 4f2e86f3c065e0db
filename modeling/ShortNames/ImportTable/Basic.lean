import ShortNames.Event

namespace ShortNames

/-- The simple names in use in a unit and its static imports, both in order of first use. -/
structure ImportTable where
  entries : List Entry := []
  statics : List String := []
deriving DecidableEq, Repr

/-- What an operation on a table answers, the table after it, and what it tells. -/
structure Recorded (α : Type) where
  result : α
  table : ImportTable
  events : List Event

def Recorded.map {α β : Type} (change : α → β) (recorded : Recorded α) : Recorded β where
  result := change recorded.result
  table := recorded.table
  events := recorded.events

namespace ImportTable

inductive Outcome
  | added
  | present
  | taken (existing : String)
deriving DecidableEq, Repr

def Outcome.isBound : Outcome → Bool
  | added | present => true
  | taken _ => false

def entry? (table : ImportTable) (simple : String) : Option Entry :=
  table.entries.find? (·.simple == simple)

def lookup (table : ImportTable) (simple : String) : Option String :=
  (table.entry? simple).map (·.qualified)

/-- The names that need an import declaration. -/
def imports (table : ImportTable) : List String :=
  (table.entries.filter (·.isImport)).map (·.qualified)

/-- Whether the unit needs no declaration at all. -/
def isEmpty (table : ImportTable) : Bool :=
  table.statics.isEmpty && table.imports.isEmpty

/-- An operation that changes nothing and tells nothing. -/
def unchanged {α : Type} (table : ImportTable) (result : α) : Recorded α where
  result := result
  table := table
  events := []

/-- Makes the entry of a simple name an import if it was implicit. -/
def promote (table : ImportTable) (simple : String) : ImportTable :=
  { table with
    entries := table.entries.map fun entry =>
      if entry.simple = simple then entry.promote else entry }

/-- Takes the simple name of a type for it. The first use of a simple name wins: a later use by
another type changes nothing. -/
def bind (table : ImportTable) (name : TypeName) (standing : Standing) : Recorded Outcome :=
  match table.entry? name.simple with
  | none =>
    let entry : Entry := ⟨name.simple, name.qualified, standing⟩
    { result := .added
      table := { table with entries := table.entries ++ [entry] }
      events := [.bound entry] }
  | some existing =>
    if existing.qualified = name.qualified then
      (if standing = .imported then table.promote name.simple else table).unchanged .present
    else
      table.unchanged (.taken existing.qualified)

/-- Imports a type, whatever is in scope. -/
def importType (table : ImportTable) (text : String) : Recorded (Except Error Outcome) :=
  match TypeName.parse text with
  | .error error => table.unchanged (.error error)
  | .ok name =>
    if name.primitive then table.unchanged (.error (.badImport text .primitiveImported))
    else if name.isQualified then (table.bind name .imported).map .ok
    else table.unchanged (.error (.badImport text .mustBeQualified))

/-- Holds the simple name of a type back without an import, so that no other type can take it. -/
def holdName (table : ImportTable) (text : String) : Recorded (Except Error Outcome) :=
  match TypeName.parse text with
  | .error error => table.unchanged (.error error)
  | .ok name =>
    if name.primitive then table.unchanged (.error (.badImport text .primitiveHeld))
    else (table.bind name .held).map .ok

/-- Imports a static member. Answers whether the import is new. -/
def importStatic (table : ImportTable) (text : String) : Recorded (Except Error Bool) :=
  match TypeName.parse text with
  | .error error => table.unchanged (.error error)
  | .ok name =>
    if name.isQualified then
      if name.qualified ∈ table.statics then
        table.unchanged (.ok false)
      else
        { result := .ok true
          table := { table with statics := table.statics ++ [name.qualified] }
          events := [.staticAdded name.qualified] }
    else
      table.unchanged (.error (.badImport text .staticWithoutType))

@[simp] theorem lookup_promote (table : ImportTable) (simple other : String) :
    (table.promote simple).lookup other = table.lookup other := by
  have same : ((·.simple == other) ∘ fun entry : Entry =>
      if entry.simple = simple then entry.promote else entry) = (·.simple == other) := by
    funext entry
    by_cases found : entry.simple = simple <;> simp [found]
  unfold lookup entry? promote
  rw [List.find?_map, same, Option.map_map]
  congr 1
  funext entry
  by_cases found : entry.simple = simple <;> simp [found]

/-- A simple name that is free is always got, and nobody else has it. -/
theorem bind_of_free {table : ImportTable} {name : TypeName} (free : table.lookup name.simple = none)
    (standing : Standing) :
    table.bind name standing =
      { result := .added
        table := { table with entries := table.entries ++ [⟨name.simple, name.qualified, standing⟩] }
        events := [.bound ⟨name.simple, name.qualified, standing⟩] } := by
  rw [bind, Option.map_eq_none_iff.mp free]

/-- Binding a name decides one simple name that was free and leaves every other as it was. -/
theorem lookup_bind (table : ImportTable) (name : TypeName) (standing : Standing) (simple : String) :
    (table.bind name standing).table.lookup simple =
      (table.lookup simple).or (if name.simple = simple then some name.qualified else none) := by
  unfold bind
  cases found : table.entry? name.simple with
  | none =>
    simp only [lookup, entry?, List.find?_append, Option.map_or]
    congr 1
    by_cases same : name.simple = simple <;> simp [same]
  | some existing =>
    have known : name.simple = simple → (table.lookup simple).isSome := by
      rintro rfl
      simp [lookup, found]
    have kept : (table.lookup simple).or (if name.simple = simple then some name.qualified else none) =
        table.lookup simple := by
      by_cases same : name.simple = simple
      · obtain ⟨bound, atSimple⟩ := Option.isSome_iff_exists.mp (known same)
        simp [atSimple]
      · simp [same]
    rw [kept]
    dsimp only
    split
    · split
      · exact lookup_promote table name.simple simple
      · rfl
    · rfl

end ImportTable

end ShortNames
