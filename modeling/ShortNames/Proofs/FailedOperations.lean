import ShortNames.Proofs.TableLoading

namespace ShortNames

/-- How an operation fails, if it does. Only what reads a text can fail, and only what reads a whole
reference can fail without an answer. -/
def Operation.failure? (table : ImportTable) : Operation → Option (Failure Error)
  | .shorten chain text => errorOf? (chain.shorten table text).result
  | .shortenType .. | .shortenName .. => none
  | .importType text => (errorOf? (table.importType text).result).map .error
  | .holdName text => (errorOf? (table.holdName text).result).map .error
  | .importStatic text => (errorOf? (table.importStatic text).result).map .error
  | .load lines => (errorOf? (table.load lines).result).map .error

/-- If the answer is an error, the table is still the one from before. -/
def Recorded.Atomic {ε α : Type} (before : ImportTable) (recorded : Recorded (Except ε α)) : Prop :=
  ∀ error, recorded.result = .error error → recorded.table = before

theorem Recorded.atomic_map_ok {ε α : Type} (before : ImportTable) (recorded : Recorded α) :
    (recorded.map (Except.ok : α → Except ε α)).Atomic before :=
  nofun

theorem Recorded.Atomic.table_eq {α : Type} {before : ImportTable} {recorded : Recorded (Except Error α)}
    {failure : Failure Error} (atomic : recorded.Atomic before)
    (failed : (errorOf? recorded.result).map .error = some failure) : recorded.table = before := by
  obtain ⟨error, found, -⟩ := Option.map_eq_some_iff.mp failed
  exact atomic error (errorOf?_eq_some_iff.mp found)

namespace ImportTable

theorem atomic_unchanged {ε α : Type} (table : ImportTable) (answer : Except ε α) :
    (table.unchanged answer).Atomic table :=
  fun _ _ => rfl

theorem atomic_importType (table : ImportTable) (text : String) : (table.importType text).Atomic table := by
  rcases table.importType_cases text with ⟨answer, same⟩ | ⟨name, -, -, bound⟩
  · rw [same]
    exact table.atomic_unchanged answer
  · rw [bound]
    exact (table.bind name .imported).atomic_map_ok table

theorem atomic_holdName (table : ImportTable) (text : String) : (table.holdName text).Atomic table := by
  rcases table.holdName_cases text with ⟨answer, same⟩ | ⟨name, -, bound⟩
  · rw [same]
    exact table.atomic_unchanged answer
  · rw [bound]
    exact (table.bind name .held).atomic_map_ok table

theorem atomic_importStatic (table : ImportTable) (text : String) : (table.importStatic text).Atomic table := by
  rcases table.importStatic_cases text with ⟨answer, same⟩ | ⟨name, -, -, -, added⟩
  · rw [same]
    exact table.atomic_unchanged answer
  · rw [added]
    exact nofun

/-- Declarations are taken over in a table that is given up when one of them fails. -/
theorem atomic_load (table : ImportTable) (lines : List String) : (table.load lines).Atomic table := by
  unfold load
  cases readLines lines with
  | error error => exact table.atomic_unchanged _
  | ok declarations =>
    dsimp only
    split
    · rename_i loaded
      intro error failed
      rw [loaded] at failed
      cases failed
    · exact fun _ _ => rfl

end ImportTable

theorem Chain.atomic_shorten (chain : Chain) (table : ImportTable) (text : String) :
    (chain.shorten table text).Atomic table := by
  unfold shorten
  cases TypeExpr.parse text with
  | error error => exact table.atomic_unchanged _
  | ok type => exact nofun

theorem Operation.run_of_failure? {table : ImportTable} {operation : Operation} {failure : Failure Error}
    (failed : operation.failure? table = some failure) : operation.run table = table := by
  cases operation with
  | shorten chain text => exact chain.atomic_shorten table text failure (errorOf?_eq_some_iff.mp failed)
  | shortenType chain type => cases failed
  | shortenName chain name => cases failed
  | importType text => exact (table.atomic_importType text).table_eq failed
  | holdName text => exact (table.atomic_holdName text).table_eq failed
  | importStatic text => exact (table.atomic_importStatic text).table_eq failed
  | load lines => exact (table.atomic_load lines).table_eq failed

namespace ImportTable

/-- The table after the import that a declaration stands for. -/
def importDeclared (table : ImportTable) (declaration : Declaration) : ImportTable :=
  if declaration.isStatic then (table.importStatic declaration.name).table
  else (table.importType declaration.name).table

/-- The later table has so many simple names and static imports more than the earlier one. -/
def Gains (earlier later : ImportTable) (count : Nat) : Prop :=
  ∃ entries statics : Nat, count = entries + statics ∧
    later.entries.length = earlier.entries.length + entries ∧
    later.statics.length = earlier.statics.length + statics

theorem Gains.refl (table : ImportTable) : table.Gains table 0 :=
  ⟨0, 0, rfl, rfl, rfl⟩

theorem Gains.trans {first second third : ImportTable} {more evenMore : Nat} (earlier : first.Gains second more)
    (later : second.Gains third evenMore) : first.Gains third (evenMore + more) := by
  obtain ⟨entries, statics, rfl, entered, added⟩ := earlier
  obtain ⟨entriesToo, staticsToo, rfl, enteredToo, addedToo⟩ := later
  exact ⟨entries + entriesToo, statics + staticsToo, by omega, by omega, by omega⟩

/-- Binding a name makes the table longer just if it answers that the name was added. An entry that
becomes an import was there before. -/
theorem gains_bind (table : ImportTable) (name : TypeName) (standing : Standing) :
    table.Gains (table.bind name standing).table (if (table.bind name standing).result == .added then 1 else 0) := by
  rcases table.bind_cases name standing with ⟨-, result, after⟩ | ⟨-, result, after⟩ | ⟨_, -, -, result, after⟩
  · rw [result, after]
    exact ⟨1, 0, rfl, List.length_append, rfl⟩
  · rw [result, after]
    split
    · exact ⟨0, 0, rfl, List.length_map .., rfl⟩
    · exact .refl table
  · rw [result, after]
    exact .refl table

theorem loadOne_table (table : ImportTable) {declaration : Declaration} (single : declaration.onDemand = false) :
    (table.loadOne declaration).table = table.importDeclared declaration := by
  unfold loadOne importDeclared
  rw [single, if_neg Bool.false_ne_true]
  split
  · rfl
  · dsimp only
    split <;> rfl

/-- A declaration that was read cannot fail when its name is read once more. -/
theorem loadOne_of_parse (table : ImportTable) {line : String} {declaration : Declaration}
    (parsed : Declaration.parse line = .ok declaration) (single : declaration.onDemand = false) :
    ∃ new : Bool, (table.loadOne declaration).Gives new (table.importDeclared declaration) ∧
      table.Gains (table.importDeclared declaration) (if new then 1 else 0) := by
  -- The name in a declaration is written out from one that was read, with a qualifier.
  obtain ⟨name, written, full, qualified⟩ := Declaration.name_of_parse parsed
  have spelled : IsDotted (name.enclosing ++ [name.simple]) declaration.name := full ▸ written.isDotted
  have long := TypeName.enclosing_ne_nil (qualified single)
  have later := table.loadOne_table single
  cases static : declaration.isStatic with
  | true =>
    have isMember := Declaration.eq_ofMember single static
    obtain ⟨result, after⟩ := table.loadOne_ofMember spelled long
    rw [← isMember] at result after
    refine ⟨_, ⟨result, later⟩, ?_⟩
    rw [← later, after]
    by_cases known : declaration.name ∈ table.statics
    · simpa [known] using Gains.refl table
    · simpa [known] using ⟨0, 1, rfl, rfl, List.length_append⟩
  | false =>
    have isType := Declaration.eq_ofType single static
    obtain ⟨read, -, -, result, after⟩ := table.loadOne_ofType spelled long
    rw [← isType] at result after
    refine ⟨_, ⟨result, later⟩, ?_⟩
    rw [← later, after]
    exact table.gains_bind read .imported

theorem loadAll_of_parse (table : ImportTable) {declarations : List Declaration}
    (parsed : ∀ declaration ∈ declarations, ∃ line, Declaration.parse line = .ok declaration) :
    let later := (declarations.filter (!·.onDemand)).foldl importDeclared table
    ∃ count, (table.loadAll declarations).Gives count later ∧ table.Gains later count := by
  induction declarations generalizing table with
  | nil => exact ⟨0, ⟨rfl, rfl⟩, .refl table⟩
  | cons declaration rest ih =>
    have others := fun next => ih next fun other member => parsed other (List.mem_cons_of_mem _ member)
    cases single : declaration.onDemand with
    | true =>
      have skipped : (table.loadOne declaration).Gives false table := by
        rw [Recorded.Gives, loadOne, if_pos single]
        exact ⟨rfl, rfl⟩
      obtain ⟨count, gives, gains⟩ := others table
      rw [List.filter_cons_of_neg (by simp [single])]
      exact ⟨count, loadAll_cons skipped gives, gains⟩
    | false =>
      obtain ⟨line, read⟩ := parsed declaration (List.mem_cons_self ..)
      obtain ⟨new, first, gained⟩ := table.loadOne_of_parse read single
      obtain ⟨count, gives, gains⟩ := others (table.importDeclared declaration)
      rw [List.filter_cons_of_pos (by simp [single]), List.foldl_cons]
      exact ⟨_, loadAll_cons first gives, gained.trans gains⟩

theorem load_of_fault {table : ImportTable} {lines : List String} {error : Error}
    (fault : lines.findSome? faultOn? = some error) : (table.load lines).result = .error error := by
  rw [load, readLines_eq, fault]
  rfl

theorem load_of_no_fault (table : ImportTable) {lines : List String} (clear : lines.findSome? faultOn? = none) :
    let later := ((lines.filterMap declarationOn?).filter (!·.onDemand)).foldl importDeclared table
    ∃ count, (table.load lines).Gives count later ∧ table.Gains later count := by
  intro later
  have read : readLines lines = .ok (lines.filterMap declarationOn?) := by rw [readLines_eq, clear]
  obtain ⟨count, gives, gains⟩ := table.loadAll_of_parse fun declaration member =>
    (line_of_readLines read member).imp fun _ found => found.2
  exact ⟨count, load_of_readLines read gives, gains⟩

/-- Loading fails with the first bad line and in no other way. -/
theorem load_eq_error_iff {table : ImportTable} {lines : List String} {error : Error} :
    (table.load lines).result = .error error ↔ lines.findSome? faultOn? = some error := by
  refine ⟨fun failed => ?_, load_of_fault⟩
  cases fault : lines.findSome? faultOn? with
  | some other =>
    rw [load_of_fault fault] at failed
    rw [Except.error.inj failed]
  | none =>
    obtain ⟨count, ⟨loaded, -⟩, -⟩ := table.load_of_no_fault fault
    rw [loaded] at failed
    cases failed

/-- A failure leaves no trace in the table. Lines are loaded all or none: the first bad line decides,
and if none is bad nothing else can fail. Then all but the declarations on demand are imported one
after another, taken names changing nothing, and the answer counts what the table has gained. -/
theorem failed_operations_leave_no_trace (table : ImportTable) :
    (∀ (operation : Operation) (failure : Failure Error),
      operation.failure? table = some failure → operation.run table = table) ∧
    ∀ lines : List String,
      ((∃ error, (table.load lines).result = .error error) ↔
        ∃ line ∈ lines, line.toList.all isBlank = false ∧ ∃ error, Declaration.parse line = .error error) ∧
      (∀ error, (table.load lines).result = .error error ↔ lines.findSome? faultOn? = some error) ∧
      ((∀ error, (table.load lines).result ≠ .error error) →
        let later := ((lines.filterMap declarationOn?).filter (!·.onDemand)).foldl importDeclared table
        ∃ count, (table.load lines).Gives count later ∧ table.Gains later count) := by
  refine ⟨fun operation failure failed => Operation.run_of_failure? failed, fun lines => ?_⟩
  refine ⟨?_, fun error => load_eq_error_iff, fun succeeds => ?_⟩
  · simp only [load_eq_error_iff, ← Option.isSome_iff_exists, List.findSome?_isSome_iff]
    simp only [Option.isSome_iff_exists, faultOn?_eq_some_iff, exists_and_left]
  · refine table.load_of_no_fault (Option.eq_none_iff_forall_ne_some.mpr fun error fault => ?_)
    exact succeeds error (load_of_fault fault)

/-- Of eight lines two bring something new. The others are blank, on demand, known already or about
a name that is taken, and one makes an import of an implicit entry. With a bad line behind them, none
of them does. -/
theorem failed_operations_leave_no_trace_mixed :
    let table : ImportTable :=
      ⟨[⟨"String", "java.lang.String", .implicit⟩, ⟨"Date", "app.Date", .held⟩], ["app.Run.main"]⟩
    let lines := ["import java.util.List;", " ", "import java.sql.Date;", "import java.lang.String;",
      "import java.util.*;", "import static app.Run.main;", "import static app.Run.stop;", "import java.util.List;"]
    let later : ImportTable :=
      ⟨[⟨"String", "java.lang.String", .imported⟩, ⟨"Date", "app.Date", .held⟩,
        ⟨"List", "java.util.List", .imported⟩], ["app.Run.main", "app.Run.stop"]⟩
    let spoilt := Operation.load (lines ++ ["import Map;", "import"])
    (table.load lines).Gives 2 later ∧ table.Gains later 2 ∧
      spoilt.failure? table = some (.error (.badImport "import Map;" .mustBeQualified)) ∧ spoilt.run table = table := by
  intro table lines later spoilt
  have answer : (table.load lines).result = .ok 2 := eq_ok_of_toOption (by decide +kernel)
  have after : (table.load lines).table = later := by decide +kernel
  have failed : spoilt.failure? table = some (.error (.badImport "import Map;" .mustBeQualified)) := by decide +kernel
  obtain ⟨atomic, loads⟩ := failed_operations_leave_no_trace table
  obtain ⟨-, -, otherwise⟩ := loads lines
  obtain ⟨count, ⟨counted, isLater⟩, gains⟩ := otherwise fun error => by simp [answer]
  rw [← isLater, after] at gains
  rw [answer] at counted
  cases counted
  exact ⟨⟨answer, after⟩, gains, failed, atomic spoilt _ failed⟩

end ImportTable

end ShortNames
