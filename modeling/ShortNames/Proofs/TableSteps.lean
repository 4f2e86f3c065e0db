import Mathlib.Logic.Relation
import ShortNames.Proofs.BuiltNames

namespace ShortNames

namespace Operation

/-- The names that an operation is given have been built like all others. Texts are read by the
operation itself. -/
def IsBuilt : Operation → Prop
  | .shortenType _ type => ∀ name ∈ type.names, name.IsBuilt
  | .shortenName _ name => name.IsBuilt
  | .shorten .. | .importType _ | .holdName _ | .importStatic _ | .load _ => True

/-- An operation asks for the declaration of a type, whatever is in scope. -/
def AsksFor (operation : Operation) (qualified : String) : Prop :=
  match operation with
  | .importType text => ∃ name, TypeName.parse text = .ok name ∧ name.qualified = qualified
  | .load lines => ∃ line ∈ lines, Declaration.parse line = .ok (.ofType qualified)
  | .shorten .. | .shortenType .. | .shortenName .. | .holdName _ | .importStatic _ => False

end Operation

namespace ImportTable

/-- The declaration on a line, if there is one that can be read. -/
def declarationOn? (line : String) : Option Declaration :=
  if line.toList.all isBlank then none else (Declaration.parse line).toOption

/-- What is wrong with a line. Nothing is wrong with a blank one. -/
def faultOn? (line : String) : Option Error :=
  if line.toList.all isBlank then none else errorOf? (Declaration.parse line)

/-- All that can happen to a table at a time: a simple name that was free is entered, an entry
becomes an import as its type was asked for, or a static import is added. -/
inductive Step (asked : String → Prop) : ImportTable → ImportTable → Prop
  | enter {table : ImportTable} {name : TypeName} {standing : Standing} :
      table.lookup name.simple = none → name.IsWritten → (standing ≠ .held → name.isQualified = true) →
      Step asked table { table with entries := table.entries ++ [⟨name.simple, name.qualified, standing⟩] }
  | promote {table : ImportTable} {simple qualified : String} :
      table.lookup simple = some qualified → asked qualified → Step asked table (table.promote simple)
  | addStatic {table : ImportTable} {name : TypeName} :
      name.qualified ∉ table.statics → name.IsWritten → name.isQualified = true →
      Step asked table { table with statics := table.statics ++ [name.qualified] }

abbrev Steps (asked : String → Prop) : ImportTable → ImportTable → Prop :=
  Relation.ReflTransGen (Step asked)

/-- The three ways in which binding a name can end. -/
theorem bind_cases (table : ImportTable) (name : TypeName) (standing : Standing) :
    (table.lookup name.simple = none ∧ (table.bind name standing).result = .added ∧
      (table.bind name standing).table =
        { table with entries := table.entries ++ [⟨name.simple, name.qualified, standing⟩] }) ∨
    (table.lookup name.simple = some name.qualified ∧ (table.bind name standing).result = .present ∧
      (table.bind name standing).table = if standing = .imported then table.promote name.simple else table) ∨
    ∃ other, table.lookup name.simple = some other ∧ other ≠ name.qualified ∧
      (table.bind name standing).result = .taken other ∧ (table.bind name standing).table = table := by
  unfold bind lookup
  cases found : table.entry? name.simple with
  | none => exact .inl ⟨rfl, rfl, rfl⟩
  | some existing =>
    by_cases same : existing.qualified = name.qualified
    · refine .inr (.inl ⟨congrArg some same, ?_, ?_⟩) <;> simp only [same, if_true] <;> rfl
    · refine .inr (.inr ⟨existing.qualified, rfl, same, ?_, ?_⟩) <;> simp only [same, if_false] <;> rfl

theorem steps_bind {asked : String → Prop} (table : ImportTable) {name : TypeName} {standing : Standing}
    (written : name.IsWritten) (qualified : standing ≠ .held → name.isQualified = true)
    (forced : standing = .imported → asked name.qualified) :
    table.Steps asked (table.bind name standing).table := by
  rcases table.bind_cases name standing with ⟨free, -, after⟩ | ⟨bound, -, after⟩ | ⟨_, -, -, -, after⟩
  · rw [after]
    exact .single (.enter free written qualified)
  · rw [after]
    split
    · rename_i imported
      exact .single (.promote bound (forced imported))
    · exact .refl
  · rw [after]

theorem steps_importType {asked : String → Prop} (table : ImportTable) {text : String}
    (forced : ∀ name, TypeName.parse text = .ok name → asked name.qualified) :
    table.Steps asked (table.importType text).table := by
  rcases table.importType_cases text with ⟨_, same⟩ | ⟨name, parsed, qualified, bound⟩
  · rw [same]
    exact .refl
  · rw [bound]
    exact table.steps_bind (TypeName.isWritten_of_parse parsed) (fun _ => qualified) (fun _ => forced name parsed)

theorem steps_holdName {asked : String → Prop} (table : ImportTable) (text : String) :
    table.Steps asked (table.holdName text).table := by
  rcases table.holdName_cases text with ⟨_, same⟩ | ⟨name, parsed, bound⟩
  · rw [same]
    exact .refl
  · rw [bound]
    exact table.steps_bind (TypeName.isWritten_of_parse parsed) (fun other => absurd rfl other) nofun

theorem steps_importStatic {asked : String → Prop} (table : ImportTable) (text : String) :
    table.Steps asked (table.importStatic text).table := by
  rcases table.importStatic_cases text with ⟨_, same⟩ | ⟨name, parsed, qualified, new, added⟩
  · rw [same]
    exact .refl
  · rw [added]
    exact .single (.addStatic new (TypeName.isWritten_of_parse parsed) qualified)

/-- A declaration asks for the type that it names. -/
theorem steps_loadOne {asked : String → Prop} (table : ImportTable) {line : String}
    {declaration : Declaration} (parsed : Declaration.parse line = .ok declaration)
    (forced : declaration = .ofType declaration.name → asked declaration.name) :
    table.Steps asked (table.loadOne declaration).table := by
  unfold loadOne
  split
  · exact .refl
  · rename_i single
    split
    · exact table.steps_importStatic declaration.name
    · rename_i regular
      rw [Bool.not_eq_true] at single regular
      have asksType : ∀ name, TypeName.parse declaration.name = .ok name → asked name.qualified := by
        intro name read
        rw [Declaration.qualified_of_reread parsed read]
        exact forced (Declaration.eq_ofType single regular)
      dsimp only
      split <;> exact table.steps_importType asksType

theorem steps_loadAll {asked : String → Prop} (table : ImportTable) {declarations : List Declaration}
    (parsed : ∀ declaration ∈ declarations, ∃ line, Declaration.parse line = .ok declaration)
    (forced : ∀ qualified, .ofType qualified ∈ declarations → asked qualified) :
    table.Steps asked (table.loadAll declarations).table := by
  induction declarations generalizing table with
  | nil => exact .refl
  | cons declaration rest ih =>
    obtain ⟨line, read⟩ := parsed declaration (List.mem_cons_self ..)
    have first : table.Steps asked (table.loadOne declaration).table :=
      table.steps_loadOne read fun regular => forced _ (List.mem_cons.mpr (.inl regular.symm))
    have others (table : ImportTable) := ih table
      (fun other member => parsed other (List.mem_cons_of_mem _ member))
      (fun qualified member => forced qualified (List.mem_cons_of_mem _ member))
    unfold loadAll
    dsimp only
    split
    · exact first
    · exact first.trans (others _)

theorem declarationOn?_eq_some_iff {line : String} {declaration : Declaration} :
    declarationOn? line = some declaration ↔
      line.toList.all isBlank = false ∧ Declaration.parse line = .ok declaration := by
  unfold declarationOn?
  cases line.toList.all isBlank with
  | true => simp
  | false => cases Declaration.parse line <;> simp [Except.toOption]

theorem faultOn?_eq_some_iff {line : String} {error : Error} :
    faultOn? line = some error ↔ line.toList.all isBlank = false ∧ Declaration.parse line = .error error := by
  unfold faultOn?
  cases line.toList.all isBlank with
  | true => simp
  | false => simp [errorOf?_eq_some_iff]

/-- Lines are read as their declarations, unless something is wrong with one. -/
theorem readLines_eq (lines : List String) :
    readLines lines =
      match lines.findSome? faultOn? with
      | some error => .error error
      | none => .ok (lines.filterMap declarationOn?) := by
  induction lines with
  | nil => rfl
  | cons line rest ih =>
    cases blank : line.toList.all isBlank with
    | true =>
      have skipped : readLines (line :: rest) = readLines rest := by
        rw [readLines, List.filter_cons_of_neg (by simp [blank]), readLines]
      have noFault : faultOn? line = none := if_pos blank
      have nothing : declarationOn? line = none := if_pos blank
      rw [skipped, ih, List.findSome?_cons, noFault, List.filterMap_cons_none nothing]
    | false =>
      have kept : readLines (line :: rest) =
          Declaration.parse line >>= fun first => readLines rest >>= fun others => pure (first :: others) := by
        rw [readLines, List.filter_cons_of_pos (by simp [blank]), List.mapM_cons]
        rfl
      rw [kept, List.findSome?_cons, ih]
      cases parsed : Declaration.parse line with
      | error error =>
        have fault : faultOn? line = some error := faultOn?_eq_some_iff.mpr ⟨blank, parsed⟩
        rw [fault]
        rfl
      | ok declaration =>
        have noFault : faultOn? line = none := by simp [faultOn?, blank, parsed, errorOf?]
        have found : declarationOn? line = some declaration := declarationOn?_eq_some_iff.mpr ⟨blank, parsed⟩
        rw [noFault, List.filterMap_cons_some found]
        cases rest.findSome? faultOn? <;> rfl

/-- Every declaration that was read stands on one of the lines. -/
theorem line_of_readLines {lines : List String} {declarations : List Declaration}
    (read : readLines lines = .ok declarations) {declaration : Declaration}
    (member : declaration ∈ declarations) : ∃ line ∈ lines, Declaration.parse line = .ok declaration := by
  rw [readLines_eq] at read
  split at read
  · cases read
  · cases read
    obtain ⟨line, inLines, found⟩ := List.mem_filterMap.mp member
    exact ⟨line, inLines, (declarationOn?_eq_some_iff.mp found).2⟩

theorem steps_load (table : ImportTable) (lines : List String) :
    table.Steps (Operation.load lines).AsksFor (table.load lines).table := by
  unfold load
  cases read : readLines lines with
  | error error => exact .refl
  | ok declarations =>
    dsimp only
    split
    · refine table.steps_loadAll (fun declaration member => ?_) (fun qualified member => ?_)
      · obtain ⟨line, -, parsed⟩ := line_of_readLines read member
        exact ⟨line, parsed⟩
      · exact line_of_readLines read member
    · exact .refl

end ImportTable

namespace Chain

theorem steps_chooseSpelling {asked : String → Prop} (chain : Chain) (table : ImportTable) {name : TypeName}
    (built : name.IsBuilt) : table.Steps asked (chain.chooseSpelling table name).table := by
  rw [chooseSpelling_table]
  split
  · rename_i free
    obtain ⟨asks, unbound⟩ := free
    simp only [asksTable, TypeName.isShortenable, Bool.and_eq_true, Bool.not_eq_true'] at asks
    exact .single (.enter unbound (built.isWritten asks.1.2) (fun _ => asks.1.1))
  · exact .refl

theorem steps_tableAfter {asked : String → Prop} (chain : Chain) (table : ImportTable) {names : List TypeName}
    (built : ∀ name ∈ names, name.IsBuilt) : table.Steps asked (chain.tableAfter table names) := by
  induction names generalizing table with
  | nil => exact .refl
  | cons name rest ih =>
    have first : table.Steps asked (chain.chooseSpelling table name).table :=
      chain.steps_chooseSpelling table (built name (List.mem_cons_self ..))
    exact first.trans (ih _ fun other member => built other (List.mem_cons_of_mem _ member))

theorem steps_shorten {asked : String → Prop} (chain : Chain) (table : ImportTable) (text : String) :
    table.Steps asked (chain.shorten table text).table := by
  rw [shorten_table]
  refine chain.steps_tableAfter table fun name member => ?_
  unfold TypeExpr.namesIn at member
  split at member
  · rename_i parsed
    exact .inReference parsed member
  · cases member

end Chain

/-- Every operation comes down to steps, whether it succeeds or not. -/
theorem Operation.steps_run (table : ImportTable) {operation : Operation} (built : operation.IsBuilt) :
    table.Steps operation.AsksFor (operation.run table) := by
  cases operation with
  | shorten chain text => exact chain.steps_shorten table text
  | shortenType chain type =>
    rw [run, Chain.shortenType_table]
    exact chain.steps_tableAfter table built
  | shortenName chain name => exact chain.steps_chooseSpelling table built
  | importType text => exact table.steps_importType fun name parsed => ⟨name, parsed, rfl⟩
  | holdName text => exact table.steps_holdName text
  | importStatic text => exact table.steps_importStatic text
  | load lines => exact table.steps_load lines

end ShortNames
