import ShortNames.Proofs.StableSpelling

namespace ShortNames

/-- The names in a text, of which there are none if it cannot be read. -/
def TypeExpr.namesIn (text : String) : List TypeName :=
  match TypeExpr.parse text with
  | .ok type => type.names
  | .error _ => []

/-- The first of some names that has a given simple name to shorten to. -/
def TypeName.firstUse? (names : List TypeName) (simple : String) : Option TypeName :=
  names.find? fun name => name.isShortenable && name.simple == simple

namespace Chain

/-- Shortens texts one after another with one chain. -/
def shortenEach (chain : Chain) (table : ImportTable) :
    List String → Recorded (List (Except (Failure Error) String))
  | [] => table.unchanged []
  | text :: rest =>
    let first := chain.shorten table text
    let others := chain.shortenEach first.table rest
    { result := first.result :: others.result
      table := others.table
      events := first.events ++ others.events }

/-- Of some names those that a table still lacks, each simple name by its first use. -/
def newNames (chain : Chain) (table : ImportTable) (names : List TypeName) : List TypeName :=
  (names.filter fun name => chain.asksTable name && (table.lookup name.simple).isNone).eraseDupsBy
    (·.simple == ·.simple)

/-- The entries that some names call for: one for each simple name that no scope decides, for the
first of the names that has it. -/
def entriesOf (chain : Chain) (names : List TypeName) : List Entry :=
  ((names.filter chain.asksTable).eraseDupsBy (·.simple == ·.simple)).map chain.entryFor

/-- Whether a name among others has lost its simple name: a scope gives it to another type, or no
scope decides and the first of the names that has it is another type. -/
def isDisplaced (chain : Chain) (names : List TypeName) (name : TypeName) : Bool :=
  name.isShortenable &&
    match chain.lookup name.simple with
    | some found => found != name.qualified
    | none => (TypeName.firstUse? names name.simple).any (·.qualified != name.qualified)

/-- Names chosen one after another add the new ones among them and nothing else. -/
theorem tableAfter_eq_append (chain : Chain) (table : ImportTable) (names : List TypeName) :
    chain.tableAfter table names =
      { table with entries := table.entries ++ (chain.newNames table names).map chain.entryFor } := by
  induction names generalizing table with
  | nil => simp [newNames]
  | cons name rest ih =>
    rw [tableAfter_cons, ih]
    by_cases new : chain.asksTable name = true ∧ table.lookup name.simple = none
    · have stillFree (other : TypeName) :
          ((chain.chooseSpelling table name).table.lookup other.simple).isNone =
            (decide ((other.simple == name.simple) = false) && (table.lookup other.simple).isNone) := by
        rw [lookup_chooseSpelling, Option.isNone_or, new.1]
        by_cases same : other.simple = name.simple
        · simp [same]
        · simp [same, Ne.symm same]
      have kept : chain.newNames table (name :: rest) =
          name :: chain.newNames (chain.chooseSpelling table name).table rest := by
        simp only [newNames, List.filter_cons, new.1, new.2, Option.isNone_none, Bool.and_true, if_true,
          List.eraseDupsBy_cons, List.filter_filter, stillFree]
        congr 3
        funext other
        exact Bool.and_left_comm ..
      rw [kept, chooseSpelling_table, if_pos new]
      simp
    · have unchanged : (chain.chooseSpelling table name).table = table := by
        rw [chooseSpelling_table, if_neg new]
      have skipped : (chain.asksTable name && (table.lookup name.simple).isNone) = false := by
        simpa [← Option.isNone_iff_eq_none] using new
      rw [unchanged]
      simp only [newNames, List.filter_cons, skipped, Bool.false_eq_true, if_false]

theorem tableAfter_empty (chain : Chain) (names : List TypeName) :
    chain.tableAfter {} names = ⟨chain.entriesOf names, []⟩ := by
  have unbound (simple : String) : ImportTable.lookup {} simple = none := rfl
  rw [tableAfter_eq_append]
  simp [newNames, entriesOf, unbound]

/-- A simple name that the table lacks and no scope decides goes to the first name that has it. -/
theorem lookup_tableAfter (chain : Chain) (table : ImportTable) (names : List TypeName) {simple : String}
    (undecided : chain.lookup simple = none) :
    (chain.tableAfter table names).lookup simple =
      (table.lookup simple).or ((TypeName.firstUse? names simple).map (·.qualified)) := by
  induction names generalizing table with
  | nil => simp [TypeName.firstUse?]
  | cons name rest ih =>
    rw [tableAfter_cons, ih, lookup_chooseSpelling, Option.or_assoc]
    congr 1
    by_cases same : name.simple = simple
    · subst same
      cases shortenable : name.isShortenable <;>
        simp [TypeName.firstUse?, asksTable, shortenable, undecided]
    · simp [TypeName.firstUse?, same]

theorem writesInFull_tableAfter_empty (chain : Chain) (names : List TypeName) (name : TypeName) :
    chain.writesInFull (chain.tableAfter {} names) name = chain.isDisplaced names name := by
  unfold writesInFull isDisplaced meaning
  cases inScope : chain.lookup name.simple with
  | some found => rfl
  | none =>
    rw [lookup_tableAfter chain {} names inScope]
    have unbound : ImportTable.lookup {} name.simple = none := rfl
    simp only [unbound, Option.none_or]
    cases TypeName.firstUse? names name.simple <;> rfl

theorem shorten_table (chain : Chain) (table : ImportTable) (text : String) :
    (chain.shorten table text).table = chain.tableAfter table (TypeExpr.namesIn text) := by
  unfold shorten TypeExpr.namesIn
  cases TypeExpr.parse text with
  | error error => rfl
  | ok type => exact chain.shortenType_table table type

theorem shorten_result {chain : Chain} {table later : ImportTable} {text : String}
    (grown : (chain.shorten table text).table.Grows later) :
    (chain.shorten table text).result =
      (TypeExpr.parse text).map (TypeExpr.renderWith (chain.spell later)) := by
  unfold shorten at grown ⊢
  cases parsed : TypeExpr.parse text with
  | error error => rfl
  | ok type =>
    rw [parsed] at grown
    exact congrArg Except.ok (chain.shortenType_result later type table grown)

theorem shortenEach_table (chain : Chain) (table : ImportTable) (texts : List String) :
    (chain.shortenEach table texts).table =
      chain.tableAfter table (texts.flatMap TypeExpr.namesIn) := by
  induction texts generalizing table with
  | nil => rfl
  | cons text rest ih =>
    rw [List.flatMap_cons, tableAfter_append, ← shorten_table]
    exact ih _

theorem shortenEach_result {chain : Chain} {table later : ImportTable} {texts : List String}
    (grown : (chain.shortenEach table texts).table.Grows later) :
    (chain.shortenEach table texts).result =
      texts.map fun text => (TypeExpr.parse text).map (TypeExpr.renderWith (chain.spell later)) := by
  induction texts generalizing table with
  | nil => rfl
  | cons text rest ih =>
    have restGrown : (chain.shortenEach (chain.shorten table text).table rest).table.Grows later := grown
    have afterFirst : (chain.shorten table text).table.Grows later := by
      have more := chain.grows_tableAfter (chain.shorten table text).table (rest.flatMap TypeExpr.namesIn)
      rw [← shortenEach_table] at more
      exact more.trans restGrown
    simp only [shortenEach, List.map_cons]
    rw [shorten_result afterFirst, ih restGrown]

/-- What a whole pass does, said without its steps. The names of all texts that can be read are
taken together, in order. The entries are those that these names call for. Every text is written
with exactly those names in full that have lost their simple name, and an earlier text is written
no differently for what comes later. -/
theorem shortenEach_eq_specification (chain : Chain) (texts : List String) :
    let names := texts.flatMap TypeExpr.namesIn
    let pass := chain.shortenEach {} texts
    pass.table = ⟨chain.entriesOf names, []⟩ ∧
      pass.result = texts.map fun text => (TypeExpr.parse text).map <| TypeExpr.renderWith fun name =>
        if chain.isDisplaced names name then name.qualified else name.simple := by
  intro names pass
  have table : pass.table = chain.tableAfter {} names := chain.shortenEach_table {} texts
  refine ⟨table.trans (chain.tableAfter_empty names), ?_⟩
  have spelled : chain.spell pass.table =
      fun name => if chain.isDisplaced names name then name.qualified else name.simple := by
    funext name
    rw [spell, table, writesInFull_tableAfter_empty]
  rw [← spelled]
  exact shortenEach_result (.refl pass.table)

end Chain

end ShortNames
