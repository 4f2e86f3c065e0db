import ShortNames.Shortening

namespace ShortNames

theorem ImportTable.lookup_append (entries added : List Entry) (statics : List String) (simple : String) :
    ImportTable.lookup ⟨entries ++ added, statics⟩ simple =
      (ImportTable.lookup ⟨entries, statics⟩ simple).or (ImportTable.lookup ⟨added, statics⟩ simple) := by
  simp only [ImportTable.lookup, ImportTable.entry?, List.find?_append, Option.map_or]

/-- Whether there is a qualifier to leave out. -/
def TypeName.isShortenable (name : TypeName) : Bool :=
  name.isQualified && !name.primitive

/-- A layer sees a type because of where it is declared, that is by what stands before its simple name. -/
def Layer.SeesByPlace (layer : Layer) : Prop :=
  ∀ first second : TypeName, first.qualifier? = second.qualifier? → layer.sees first = layer.sees second

theorem Layer.seesByPlace_unit (scope : UnitScope) : (Layer.unit scope).SeesByPlace := by
  intro first second same
  simp only [Layer.sees, UnitScope.sees, TypeName.isDirectlyIn, same]

theorem Layer.seesByPlace_body (scope : BodyScope) : (Layer.body scope).SeesByPlace :=
  fun _ _ _ => rfl

namespace Chain

/-- What a simple name means at a position. The scopes decide before the table does. -/
def meaning (chain : Chain) (table : ImportTable) (simple : String) : Option String :=
  (chain.lookup simple).or (table.lookup simple)

/-- Whether a name has to be written in full because its simple name means another type. -/
def writesInFull (chain : Chain) (table : ImportTable) (name : TypeName) : Bool :=
  name.isShortenable && (chain.meaning table name.simple).any (· != name.qualified)

def spell (chain : Chain) (table : ImportTable) (name : TypeName) : String :=
  if chain.writesInFull table name then name.qualified else name.simple

/-- Whether the table decides about a name, since no scope does. -/
def asksTable (chain : Chain) (name : TypeName) : Bool :=
  name.isShortenable && (chain.lookup name.simple).isNone

/-- The entry under which a name goes into the table. -/
def entryFor (chain : Chain) (name : TypeName) : Entry where
  simple := name.simple
  qualified := name.qualified
  standing := if chain.sees name then .implicit else .imported

/-- Every foreign scope of the chain sees a type because of where it is declared. -/
def SeesByPlace (chain : Chain) : Prop :=
  ∀ scope, Layer.foreign scope ∈ chain.layers → (Layer.foreign scope).SeesByPlace

/-- One foreign scope in a unit, which sees types by where they are declared. -/
theorem seesByPlace_of_place {unit : UnitScope} {scope : ForeignScope} (place : ∀ first second : TypeName,
    first.qualifier? = second.qualifier? → scope.sees first = scope.sees second) :
    ((ofUnit unit).push (.foreign scope)).SeesByPlace := by
  intro other member
  obtain rfl : other = scope := by simpa using member
  exact place

/-- Of a name such scopes see only what stands before the simple name. -/
theorem SeesByPlace.sees_congr {chain : Chain} (byPlace : chain.SeesByPlace) {first second : TypeName}
    (same : first.qualifier? = second.qualifier?) : chain.sees first = chain.sees second := by
  have layers : ∀ layer ∈ chain.layers, layer.sees first = layer.sees second := by
    intro layer member
    cases layer with
    | unit scope => exact Layer.seesByPlace_unit scope first second same
    | body scope => exact Layer.seesByPlace_body scope first second same
    | foreign scope => exact byPlace scope member first second same
  rw [Bool.eq_iff_iff]
  simp only [sees, List.any_eq_true]
  exact exists_congr fun layer => and_congr_right fun member => by rw [layers layer member]

/-- A name that scopes and table leave open takes its simple name. That another type has it already
is never the outcome, so such a name is not written in full. -/
theorem chooseSpelling_of_open {chain : Chain} {table : ImportTable} {name : TypeName}
    (asks : chain.asksTable name = true) (free : table.lookup name.simple = none) :
    chain.chooseSpelling table name =
      { result := if chain.sees name then .implicit else .freshImport
        table := { table with entries := table.entries ++ [chain.entryFor name] }
        events := [.bound (chain.entryFor name)] } := by
  simp only [asksTable, TypeName.isShortenable, Bool.and_eq_true, Bool.not_eq_true', Option.isNone_iff_eq_none] at asks
  obtain ⟨⟨qualified, ordinary⟩, undecided⟩ := asks
  unfold chooseSpelling
  cases seen : chain.sees name <;>
    simp [ordinary, qualified, undecided, free, ImportTable.bind_of_free free, Recorded.map, spellingAfter,
      entryFor, seen]

theorem chooseSpelling_isShort (chain : Chain) (table : ImportTable) (name : TypeName) :
    (chain.chooseSpelling table name).result.isShort = !chain.writesInFull table name := by
  unfold chooseSpelling writesInFull meaning TypeName.isShortenable
  cases primitive : name.primitive with
  | true => simp [ImportTable.unchanged, Spelling.isShort]
  | false =>
    cases qualified : name.isQualified with
    | false => simp [ImportTable.unchanged, Spelling.isShort]
    | true =>
      cases inScope : chain.lookup name.simple with
      | some found =>
        by_cases same : found = name.qualified <;> simp [ImportTable.unchanged, Spelling.isShort, same]
      | none =>
        cases bound : table.lookup name.simple with
        | some found =>
          by_cases same : found = name.qualified <;> simp [ImportTable.unchanged, Spelling.isShort, same]
        | none =>
          cases seen : chain.sees name <;>
            simp [ImportTable.bind_of_free bound, Recorded.map, spellingAfter, Spelling.isShort]

theorem chooseSpelling_text (chain : Chain) (table : ImportTable) (name : TypeName) :
    (chain.chooseSpelling table name).result.text name = chain.spell table name := by
  unfold Spelling.text spell
  rw [chooseSpelling_isShort]
  cases chain.writesInFull table name <;> rfl

/-- Choosing a spelling writes to the table in one case only: no scope and no entry knows the
simple name. Then the name itself is entered behind all others, and this is told. -/
theorem chooseSpelling_cases (chain : Chain) (table : ImportTable) (name : TypeName) :
    ((chain.asksTable name = true ∧ table.lookup name.simple = none) ∧
      ∃ spelling, chain.chooseSpelling table name =
        { result := spelling
          table := { table with entries := table.entries ++ [chain.entryFor name] }
          events := [.bound (chain.entryFor name)] }) ∨
    (¬ (chain.asksTable name = true ∧ table.lookup name.simple = none) ∧
      ∃ spelling, chain.chooseSpelling table name = table.unchanged spelling) := by
  by_cases new : chain.asksTable name = true ∧ table.lookup name.simple = none
  · exact .inl ⟨new, _, chooseSpelling_of_open new.1 new.2⟩
  · refine .inr ⟨new, ?_⟩
    unfold asksTable TypeName.isShortenable at new
    unfold chooseSpelling
    cases primitive : name.primitive with
    | true => exact ⟨_, rfl⟩
    | false =>
      cases qualified : name.isQualified with
      | false => exact ⟨_, rfl⟩
      | true =>
        cases inScope : chain.lookup name.simple with
        | some found => exact ⟨_, rfl⟩
        | none =>
          cases bound : table.lookup name.simple with
          | some found => exact ⟨_, rfl⟩
          | none => simp [primitive, qualified, inScope, bound] at new

theorem chooseSpelling_table (chain : Chain) (table : ImportTable) (name : TypeName) :
    (chain.chooseSpelling table name).table =
      if chain.asksTable name ∧ table.lookup name.simple = none then
        { table with entries := table.entries ++ [chain.entryFor name] }
      else table := by
  rcases chain.chooseSpelling_cases table name with ⟨free, _, chosen⟩ | ⟨known, _, chosen⟩
  · rw [chosen, if_pos free]
  · rw [chosen, if_neg known]
    rfl

/-- A chosen name leaves a simple name that neither scopes nor table knew bound to itself, and
every other simple name as it was. -/
theorem lookup_chooseSpelling (chain : Chain) (table : ImportTable) (name : TypeName) (simple : String) :
    (chain.chooseSpelling table name).table.lookup simple =
      (table.lookup simple).or
        (if chain.asksTable name ∧ name.simple = simple then some name.qualified else none) := by
  rw [chooseSpelling_table]
  by_cases asks : chain.asksTable name = true
  · by_cases same : name.simple = simple
    · subst same
      cases bound : table.lookup name.simple with
      | some found => simp [bound]
      | none =>
        have atEnd : ImportTable.lookup ⟨[chain.entryFor name], table.statics⟩ name.simple =
            some name.qualified := by
          simp [ImportTable.lookup, ImportTable.entry?, entryFor]
        simp only [asks, and_self, if_true]
        rw [ImportTable.lookup_append, atEnd, bound]
    · have elsewhere : ImportTable.lookup ⟨[chain.entryFor name], table.statics⟩ simple = none := by
        simp [ImportTable.lookup, ImportTable.entry?, entryFor, same]
      split
      · rw [ImportTable.lookup_append, elsewhere]
        simp [same]
      · simp [same]
  · simp [asks]

/-- The table after names were chosen one after another. -/
def tableAfter (chain : Chain) (table : ImportTable) (names : List TypeName) : ImportTable :=
  names.foldl (fun table name => (chain.chooseSpelling table name).table) table

@[simp] theorem tableAfter_nil (chain : Chain) (table : ImportTable) : chain.tableAfter table [] = table := rfl

@[simp] theorem tableAfter_cons (chain : Chain) (table : ImportTable) (name : TypeName)
    (names : List TypeName) :
    chain.tableAfter table (name :: names) =
      chain.tableAfter (chain.chooseSpelling table name).table names := rfl

@[simp] theorem tableAfter_append (chain : Chain) (table : ImportTable) (first second : List TypeName) :
    chain.tableAfter table (first ++ second) = chain.tableAfter (chain.tableAfter table first) second :=
  List.foldl_append

mutual
/-- A reference acts on the table through its names alone, in the order in which they are written. -/
theorem shortenType_table (chain : Chain) (table : ImportTable) :
    (type : TypeExpr) → (chain.shortenType table type).table = chain.tableAfter table type.names
  | .named _ => rfl
  | .generic head args => by
    simp only [shortenType, TypeExpr.names, tableAfter_append]
    rw [shortenAll_table, shortenType_table]
  | .inner outer _ => shortenType_table chain table outer
  | .array element _ => shortenType_table chain table element
  | .anything => rfl
  | .bounded _ limit => shortenType_table chain table limit

theorem shortenAll_table (chain : Chain) (table : ImportTable) :
    (types : List TypeExpr) →
      (chain.shortenAll table types).table = chain.tableAfter table (TypeExpr.namesAll types)
  | [] => rfl
  | type :: others => by
    simp only [shortenAll, TypeExpr.namesAll, tableAfter_append]
    rw [shortenAll_table, shortenType_table]
end

end Chain

end ShortNames
