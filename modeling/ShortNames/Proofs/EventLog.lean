import Mathlib.Data.List.Forall2
import ShortNames.Proofs.FailedOperations
import ShortNames.Proofs.NamesInTurn

namespace ShortNames

namespace Event

/-- The entry that was made, if an event tells of one. -/
def entry? : Event → Option Entry
  | .bound entry => some entry
  | _ => none

/-- The static import that was added, if an event tells of one. -/
def static? : Event → Option String
  | .staticAdded name => some name
  | _ => none

/-- The full name of what was spelled, if an event tells of a name. -/
def spelled? : Event → Option String
  | .nameSpelled qualified _ => some qualified
  | _ => none

end Event

/-- Some events tell how names were spelled, of all these names in order and of no others, and besides
only which entries were made. -/
def TellsNames (events : List Event) (names : List TypeName) : Prop :=
  events.filterMap Event.spelled? = names.map TypeName.qualified ∧
    ∀ event ∈ events, event.entry?.isSome ∨ event.spelled?.isSome

/-- What an operation tells. -/
def Operation.events (table : ImportTable) : Operation → List Event
  | .shorten chain text => (chain.shorten table text).events
  | .shortenType chain type => (chain.shortenType table type).events
  | .shortenName chain name => (chain.shortenName table name).events
  | .importType text => (table.importType text).events
  | .holdName text => (table.holdName text).events
  | .importStatic text => (table.importStatic text).events
  | .load lines => (table.load lines).events

namespace ImportTable

/-- All that is told while operations run one after another. -/
def log (table : ImportTable) : List Operation → List Event
  | [] => []
  | operation :: rest => operation.events table ++ (operation.run table).log rest

/-- All that can happen to a table at a time, with what is told of it. A simple name that was free is
entered, a static import is added, and both are told. That an entry becomes an import is not told.
Whatever else is told is about no change. -/
inductive LoggedStep (asked : String → Prop) : ImportTable → List Event → ImportTable → Prop
  | enter {table : ImportTable} {entry : Entry} : table.lookup entry.simple = none →
      LoggedStep asked table [.bound entry] { table with entries := table.entries ++ [entry] }
  | promote {table : ImportTable} {simple qualified : String} :
      table.lookup simple = some qualified → asked qualified → LoggedStep asked table [] (table.promote simple)
  | addStatic {table : ImportTable} {name : String} :
      LoggedStep asked table [.staticAdded name] { table with statics := table.statics ++ [name] }
  | remark {table : ImportTable} {event : Event} : event.entry? = none → event.static? = none →
      LoggedStep asked table [event] table

inductive LoggedSteps (asked : String → Prop) (table : ImportTable) : List Event → ImportTable → Prop
  | refl : LoggedSteps asked table [] table
  | tail {log events : List Event} {between later : ImportTable} : LoggedSteps asked table log between →
      between.LoggedStep asked events later → LoggedSteps asked table (log ++ events) later

section Steps

variable {asked : String → Prop}

theorem LoggedSteps.single {table later : ImportTable} {events : List Event}
    (step : table.LoggedStep asked events later) : table.LoggedSteps asked events later :=
  LoggedSteps.refl.tail step

theorem LoggedSteps.trans {first second third : ImportTable} {log more : List Event}
    (earlier : first.LoggedSteps asked log second) (later : second.LoggedSteps asked more third) :
    first.LoggedSteps asked (log ++ more) third := by
  induction later with
  | refl =>
    rw [List.append_nil]
    exact earlier
  | tail _ step ih =>
    rw [← List.append_assoc]
    exact ih.tail step

theorem loggedSteps_bind (table : ImportTable) {name : TypeName} {standing : Standing}
    (forced : table.lookup name.simple = some name.qualified → standing = .imported → asked name.qualified) :
    table.LoggedSteps asked (table.bind name standing).events (table.bind name standing).table := by
  unfold bind
  unfold lookup at forced
  cases found : table.entry? name.simple with
  | none => exact .single (.enter (Option.map_eq_none_iff.mpr found))
  | some existing =>
    dsimp only
    split
    · rename_i same
      rw [found, Option.map_some, same] at forced
      split
      · rename_i imported
        exact .single (.promote (by rw [lookup, found, Option.map_some, same]) (forced rfl imported))
      · exact .refl
    · exact .refl

theorem loggedSteps_importType (table : ImportTable) {text : String}
    (forced : ∀ name, TypeName.parse text = .ok name → asked name.qualified) :
    table.LoggedSteps asked (table.importType text).events (table.importType text).table := by
  rcases table.importType_cases text with ⟨_, same⟩ | ⟨name, parsed, -, bound⟩
  · rw [same]
    exact .refl
  · rw [bound]
    exact table.loggedSteps_bind fun _ _ => forced name parsed

theorem loggedSteps_holdName (table : ImportTable) (text : String) :
    table.LoggedSteps asked (table.holdName text).events (table.holdName text).table := by
  rcases table.holdName_cases text with ⟨_, same⟩ | ⟨name, -, bound⟩
  · rw [same]
    exact .refl
  · rw [bound]
    exact table.loggedSteps_bind nofun

theorem loggedSteps_importStatic (table : ImportTable) (text : String) :
    table.LoggedSteps asked (table.importStatic text).events (table.importStatic text).table := by
  rcases table.importStatic_cases text with ⟨_, same⟩ | ⟨name, -, -, -, added⟩
  · rw [same]
    exact .refl
  · rw [added]
    exact .single .addStatic

theorem loggedSteps_loadOne (table : ImportTable) {line : String} {declaration : Declaration}
    (parsed : Declaration.parse line = .ok declaration)
    (forced : declaration = .ofType declaration.name → asked declaration.name) :
    table.LoggedSteps asked (table.loadOne declaration).events (table.loadOne declaration).table := by
  unfold loadOne
  split
  · exact .single (.remark rfl rfl)
  · rename_i single
    split
    · exact table.loggedSteps_importStatic declaration.name
    · rename_i regular
      rw [Bool.not_eq_true] at single regular
      have asksType : ∀ name, TypeName.parse declaration.name = .ok name → asked name.qualified := by
        intro name read
        rw [Declaration.qualified_of_reread parsed read]
        exact forced (Declaration.eq_ofType single regular)
      have imported := table.loggedSteps_importType asksType
      dsimp only
      split
      · exact imported.tail (.remark rfl rfl)
      · exact imported

theorem loggedSteps_loadAll (table : ImportTable) {declarations : List Declaration}
    (parsed : ∀ declaration ∈ declarations, ∃ line, Declaration.parse line = .ok declaration)
    (forced : ∀ qualified, .ofType qualified ∈ declarations → asked qualified) :
    table.LoggedSteps asked (table.loadAll declarations).events (table.loadAll declarations).table := by
  induction declarations generalizing table with
  | nil => exact .refl
  | cons declaration rest ih =>
    obtain ⟨line, read⟩ := parsed declaration (List.mem_cons_self ..)
    have first := table.loggedSteps_loadOne read fun regular => forced _ (List.mem_cons.mpr (.inl regular.symm))
    have others (table : ImportTable) := ih table
      (fun other member => parsed other (List.mem_cons_of_mem _ member))
      (fun qualified member => forced qualified (List.mem_cons_of_mem _ member))
    unfold loadAll
    dsimp only
    split
    · exact first
    · exact first.trans (others _)

/-- What was told while declarations were taken over is never taken back: once all of them have been
read, none of them can fail. -/
theorem loggedSteps_load (table : ImportTable) {lines : List String}
    (forced : ∀ qualified, (Operation.load lines).AsksFor qualified → asked qualified) :
    table.LoggedSteps asked (table.load lines).events (table.load lines).table := by
  unfold load
  cases read : readLines lines with
  | error error => exact .refl
  | ok declarations =>
    have parsed : ∀ declaration ∈ declarations, ∃ line, Declaration.parse line = .ok declaration :=
      fun declaration member => (line_of_readLines read member).imp fun _ found => found.2
    obtain ⟨count, ⟨succeeds, -⟩, -⟩ := table.loadAll_of_parse parsed
    dsimp only
    rw [succeeds]
    exact table.loggedSteps_loadAll parsed fun qualified member => forced qualified (line_of_readLines read member)

end Steps

end ImportTable

namespace Chain

variable {asked : String → Prop}

theorem loggedSteps_shortenName (chain : Chain) (table : ImportTable) (name : TypeName) :
    table.LoggedSteps asked (chain.shortenName table name).events (chain.shortenName table name).table := by
  unfold shortenName
  rcases chain.chooseSpelling_cases table name with ⟨⟨-, free⟩, _, chosen⟩ | ⟨-, _, chosen⟩
  · rw [chosen]
    exact (ImportTable.LoggedSteps.single (.enter free)).tail (.remark rfl rfl)
  · rw [chosen]
    exact .single (.remark rfl rfl)

theorem loggedSteps_shortenNames (chain : Chain) (table : ImportTable) (names : List TypeName) :
    table.LoggedSteps asked (chain.shortenNames table names).events (chain.shortenNames table names).table := by
  induction names generalizing table with
  | nil => exact .refl
  | cons name rest ih => exact (chain.loggedSteps_shortenName table name).trans (ih _)

theorem loggedSteps_shortenType (chain : Chain) (table : ImportTable) (type : TypeExpr) :
    table.LoggedSteps asked (chain.shortenType table type).events (chain.shortenType table type).table := by
  rw [shortenType_eq]
  exact chain.loggedSteps_shortenNames table type.names

theorem loggedSteps_shorten (chain : Chain) (table : ImportTable) (text : String) :
    table.LoggedSteps asked (chain.shorten table text).events (chain.shorten table text).table := by
  unfold shorten
  cases TypeExpr.parse text with
  | error error => exact .refl
  | ok type => exact (chain.loggedSteps_shortenType table type).tail (.remark rfl rfl)

end Chain

theorem Operation.loggedSteps_run {asked : String → Prop} (table : ImportTable) {operation : Operation}
    (forced : ∀ qualified, operation.AsksFor qualified → asked qualified) :
    table.LoggedSteps asked (operation.events table) (operation.run table) := by
  cases operation with
  | shorten chain text => exact chain.loggedSteps_shorten table text
  | shortenType chain type => exact chain.loggedSteps_shortenType table type
  | shortenName chain name => exact chain.loggedSteps_shortenName table name
  | importType text => exact table.loggedSteps_importType fun name parsed => forced _ ⟨name, parsed, rfl⟩
  | holdName text => exact table.loggedSteps_holdName text
  | importStatic text => exact table.loggedSteps_importStatic text
  | load lines => exact table.loggedSteps_load forced

theorem Entry.Becomes.meaning_eq {asked : String → Prop} {entry later : Entry} (becomes : entry.Becomes asked later) :
    (entry.simple, entry.qualified) = (later.simple, later.qualified) := by
  rcases becomes with rfl | ⟨-, rfl, -⟩ <;> rfl

namespace ImportTable

theorem loggedSteps_after {asked : String → Prop} (table : ImportTable) (history : List Operation)
    (forced : ∀ operation ∈ history, ∀ qualified, operation.AsksFor qualified → asked qualified) :
    table.LoggedSteps asked (table.log history) (table.after history) := by
  induction history generalizing table with
  | nil => exact .refl
  | cons operation rest ih =>
    have first := operation.loggedSteps_run table (forced operation (List.mem_cons_self ..))
    exact first.trans (ih _ fun other member => forced other (List.mem_cons_of_mem _ member))

/-- The entries that a log tells of are those of the table, in order, up to the implicit ones that
have become imports. The static imports that it tells of are those of the table. -/
structure Replays (asked : String → Prop) (log : List Event) (table : ImportTable) : Prop where
  distinct : (table.entries.map (·.simple)).Nodup
  entries : List.Forall₂ (Entry.Becomes asked) (log.filterMap Event.entry?) table.entries
  statics : log.filterMap Event.static? = table.statics

theorem replays_empty {asked : String → Prop} : Replays asked [] {} where
  distinct := List.nodup_nil
  entries := .nil
  statics := rfl

theorem LoggedStep.replays {asked : String → Prop} {table later : ImportTable} {log events : List Event}
    (step : table.LoggedStep asked events later) (replays : Replays asked log table) :
    Replays asked (log ++ events) later := by
  obtain ⟨distinct, entries, statics⟩ := replays
  cases step with
  | @enter entry free =>
    refine ⟨?_, ?_, ?_⟩
    · rw [List.map_append, List.map_singleton, ← List.concat_eq_append]
      exact distinct.concat (lookup_eq_none_iff.mp free)
    · rw [List.filterMap_append]
      exact List.rel_append entries (.cons (.inl rfl) .nil)
    · rw [List.filterMap_append, statics]
      exact List.append_nil _
  | @promote simple qualified bound forced =>
    rw [List.append_nil]
    refine ⟨?_, ?_, statics⟩
    · rw [simples_promote]
      exact distinct
    · rw [ImportTable.promote, List.forall₂_map_right_iff]
      rw [List.forall₂_iff_zip] at entries ⊢
      refine ⟨entries.1, fun {told entry} paired => ?_⟩
      have member := (List.of_mem_zip paired).2
      exact (entries.2 paired).trans (becomes_promoted distinct bound forced member)
  | @addStatic name =>
    refine ⟨distinct, ?_, ?_⟩
    · rw [List.filterMap_append]
      exact (List.append_nil _).symm ▸ entries
    · rw [List.filterMap_append, statics]
      rfl
  | @remark event noEntry noStatic =>
    refine ⟨distinct, ?_, ?_⟩
    · rw [List.filterMap_append, List.filterMap_cons_none noEntry, List.filterMap_nil, List.append_nil]
      exact entries
    · rw [List.filterMap_append, List.filterMap_cons_none noStatic, List.filterMap_nil, List.append_nil]
      exact statics

theorem LoggedSteps.replays {asked : String → Prop} {table later : ImportTable} {log events : List Event}
    (steps : table.LoggedSteps asked events later) (replays : Replays asked log table) :
    Replays asked (log ++ events) later := by
  induction steps with
  | refl =>
    rw [List.append_nil]
    exact replays
  | tail _ step ih =>
    rw [← List.append_assoc]
    exact step.replays ih

theorem Replays.meanings_eq {asked : String → Prop} {log : List Event} {table : ImportTable}
    (replays : Replays asked log table) :
    (log.filterMap Event.entry?).map (fun entry => (entry.simple, entry.qualified)) = table.meanings := by
  rw [ImportTable.meanings, ← List.forall₂_eq_eq_eq, List.forall₂_map_left_iff, List.forall₂_map_right_iff]
  exact replays.entries.imp fun _ _ => Entry.Becomes.meaning_eq

end ImportTable

namespace Chain

theorem tellsNames_shortenName (chain : Chain) (table : ImportTable) (name : TypeName) :
    TellsNames (chain.shortenName table name).events [name] := by
  unfold shortenName TellsNames
  rcases chain.chooseSpelling_cases table name with ⟨-, _, chosen⟩ | ⟨-, _, chosen⟩
  · rw [chosen]
    exact ⟨rfl, by simp [Event.entry?, Event.spelled?]⟩
  · rw [chosen]
    exact ⟨rfl, by simp [ImportTable.unchanged, Event.spelled?]⟩

theorem tellsNames_shortenNames (chain : Chain) (table : ImportTable) (names : List TypeName) :
    TellsNames (chain.shortenNames table names).events names := by
  induction names generalizing table with
  | nil => exact ⟨rfl, nofun⟩
  | cons name rest ih =>
    obtain ⟨first, firstOnly⟩ := chain.tellsNames_shortenName table name
    obtain ⟨others, othersOnly⟩ := ih (chain.shortenName table name).table
    refine ⟨?_, fun event member => ?_⟩
    · rw [shortenNames, List.filterMap_append, first, others]
      rfl
    · exact (List.mem_append.mp member).elim (firstOnly event) (othersOnly event)

/-- A reference that can be read is told of name by name and then as a whole. Of another nothing is
told. -/
theorem events_shorten (chain : Chain) (table : ImportTable) (text : String) :
    (∀ error, (chain.shorten table text).result = .error error → (chain.shorten table text).events = []) ∧
      ∀ short, (chain.shorten table text).result = .ok short →
        ∃ type before, TypeExpr.parse text = .ok type ∧ TellsNames before type.names ∧
          (chain.shorten table text).events = before ++ [.referenceSpelled text short] := by
  unfold shorten
  cases TypeExpr.parse text with
  | error error => exact ⟨fun _ _ => rfl, nofun⟩
  | ok type =>
    refine ⟨nofun, fun short answered => ?_⟩
    cases answered
    refine ⟨type, _, rfl, ?_, rfl⟩
    rw [shortenType_eq]
    exact chain.tellsNames_shortenNames table type.names

end Chain

namespace ImportTable

/-- What is told is what happened. Whatever operations are run one after another from the empty table, and
whichever of them fail, the entries told of are those of the table in order, each with the standing that it
still has unless it was implicit and its type was asked for, and so are the static imports. A reference that
was shortened is told of name by name, in the order in which the names are visited, and then as a whole with
its text. Nothing is told of one that cannot be read. -/
theorem log_replays_to_table (history : List Operation) :
    let table := ({} : ImportTable).after history
    let log := ({} : ImportTable).log history
    (log.filterMap Event.entry?).map (fun entry => (entry.simple, entry.qualified)) = table.meanings ∧
      List.Forall₂ (Entry.Becomes fun qualified => ∃ operation ∈ history, operation.AsksFor qualified)
        (log.filterMap Event.entry?) table.entries ∧
      log.filterMap Event.static? = table.statics ∧
      ∀ (earlier : ImportTable) (chain : Chain) (text : String),
        let shortened := chain.shorten earlier text
        (∀ error, shortened.result = .error error → shortened.events = []) ∧
          ∀ short, shortened.result = .ok short →
            ∃ type before, TypeExpr.parse text = .ok type ∧ TellsNames before type.names ∧
              shortened.events = before ++ [.referenceSpelled text short] := by
  intro table log
  let asked (qualified : String) : Prop := ∃ operation ∈ history, operation.AsksFor qualified
  have steps : LoggedSteps asked {} log table :=
    loggedSteps_after {} history fun operation member _ asks => ⟨operation, member, asks⟩
  have replays : Replays asked log table := steps.replays replays_empty
  exact ⟨replays.meanings_eq, replays.entries, replays.statics,
    fun earlier chain text => chain.events_shorten earlier text⟩

/-- Two of seven operations fail, and one is told of only by what it leaves out. `String` is told of as
implicit and has become an import since. -/
theorem log_replays_to_table_string :
    let chain := Chain.ofUnit (.ofPackage "app")
    let history := [Operation.shorten chain "java.lang.String", .importType "int", .importType "java.lang.String",
      .load ["import java.util.List;", "import java.awt.List;", "import java.util.*;"], .importStatic "a.B.c",
      .load ["import static a.B.d;", "import"], .shorten chain "a.B<"]
    let table := ({} : ImportTable).after history
    let told := [⟨"String", "java.lang.String", .implicit⟩, ⟨"List", "java.util.List", .imported⟩]
    (ImportTable.log {} history).filterMap Event.entry? = told ∧
      table = ⟨[⟨"String", "java.lang.String", .imported⟩, ⟨"List", "java.util.List", .imported⟩], ["a.B.c"]⟩ ∧
      List.Forall₂ (Entry.Becomes fun qualified => ∃ operation ∈ history, operation.AsksFor qualified)
        told table.entries ∧
      (ImportTable.log {} history).filterMap Event.static? = ["a.B.c"] ∧
      (chain.shorten table "a.B<").events = [] ∧
      ∃ type before, TypeExpr.parse "a.Map<java.awt.List>" = .ok type ∧ TellsNames before type.names ∧
        (chain.shorten table "a.Map<java.awt.List>").events =
          before ++ [.referenceSpelled "a.Map<java.awt.List>" "Map<java.awt.List>"] := by
  intro chain history table told
  have entries : (ImportTable.log {} history).filterMap Event.entry? = told := by decide +kernel
  have known : table =
      ⟨[⟨"String", "java.lang.String", .imported⟩, ⟨"List", "java.util.List", .imported⟩], ["a.B.c"]⟩ := by
    decide +kernel
  have fails : (chain.shorten table "a.B<").result = .error (.error (.malformed "a.B<" ⟨3, .unbalancedAngles⟩)) :=
    errorOf?_eq_some_iff.mp (by decide +kernel)
  have succeeds : (chain.shorten table "a.Map<java.awt.List>").result = .ok "Map<java.awt.List>" := by
    rw [known]
    exact eq_ok_of_toOption (by decide +kernel)
  obtain ⟨-, becomes, statics, shortened⟩ := log_replays_to_table history
  rw [entries] at becomes
  refine ⟨entries, known, becomes, ?_, (shortened table chain _).1 _ fails, (shortened table chain _).2 _ succeeds⟩
  exact statics.trans (congrArg ImportTable.statics known)

end ImportTable

end ShortNames
