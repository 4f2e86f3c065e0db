import Mathlib.Data.List.Nodup
import ShortNames.Proofs.TableSteps

namespace ShortNames

theorem TypeName.IsWritten.isDotted {name : TypeName} (written : name.IsWritten) :
    IsDotted (name.enclosing ++ [name.simple]) name.qualified :=
  ⟨rfl, written⟩

theorem TypeName.enclosing_ne_nil {name : TypeName} (qualified : name.isQualified = true) :
    name.enclosing ≠ [] := by
  intro empty
  rw [isQualified, empty] at qualified
  cases qualified

/-- What an entry can be later on: the same, or an import where it was implicit and its type was
asked for. -/
def Entry.Becomes (asked : String → Prop) (entry later : Entry) : Prop :=
  later = entry ∨
    entry.standing = .implicit ∧ later = { entry with standing := .imported } ∧ asked entry.qualified

theorem Entry.Becomes.trans {asked : String → Prop} {first second third : Entry}
    (earlier : first.Becomes asked second) (later : second.Becomes asked third) : first.Becomes asked third := by
  rcases earlier with rfl | ⟨implicit, rfl, forced⟩
  · exact later
  · rcases later with rfl | ⟨stillImplicit, _, _⟩
    · exact .inr ⟨implicit, rfl, forced⟩
    · cases stillImplicit

theorem Entry.becomes_promote {asked : String → Prop} {entry : Entry} (forced : asked entry.qualified) :
    entry.Becomes asked entry.promote := by
  unfold Entry.promote
  split
  · rename_i implicit
    exact .inr ⟨implicit, rfl, forced⟩
  · exact .inl rfl

theorem Entry.standing_promote_eq_held {entry : Entry} :
    entry.promote.standing = .held ↔ entry.standing = .held := by
  unfold Entry.promote
  split
  · rename_i implicit
    simp [implicit]
  · rfl

namespace ImportTable

/-- What holds of every table that can come about. The simple names are distinct, each is the last
piece of the full name that it stands for, and only a name held back may lack a qualifier. -/
structure WellFormed (table : ImportTable) : Prop where
  distinct : (table.entries.map (·.simple)).Nodup
  named : ∀ entry ∈ table.entries, ∃ outer : List String,
    IsDotted (outer ++ [entry.simple]) entry.qualified ∧ (entry.standing ≠ .held → outer ≠ [])
  staticsDistinct : table.statics.Nodup
  staticsNamed : ∀ name ∈ table.statics, ∃ (outer : List String) (simple : String),
    IsDotted (outer ++ [simple]) name ∧ outer ≠ []

theorem wellFormed_empty : WellFormed {} where
  distinct := List.nodup_nil
  named _ member := nomatch member
  staticsDistinct := List.nodup_nil
  staticsNamed _ member := nomatch member

theorem lookup_eq_none_iff {table : ImportTable} {simple : String} :
    table.lookup simple = none ↔ simple ∉ table.entries.map (·.simple) := by
  simp [lookup, entry?, List.find?_eq_none]

/-- Of entries with distinct simple names each is found under its own. -/
theorem entry?_of_mem {table : ImportTable} (distinct : (table.entries.map (·.simple)).Nodup) {entry : Entry}
    (member : entry ∈ table.entries) : table.entry? entry.simple = some entry := by
  unfold entry?
  generalize table.entries = entries at member distinct
  induction entries with
  | nil => cases member
  | cons first rest ih =>
    rw [List.map_cons, List.nodup_cons] at distinct
    rcases List.mem_cons.mp member with rfl | inRest
    · exact List.find?_cons_of_pos (beq_self_eq_true _)
    · have other : first.simple ≠ entry.simple := fun same =>
        distinct.1 (same ▸ List.mem_map_of_mem inRest)
      rw [List.find?_cons_of_neg (by simpa using other)]
      exact ih inRest distinct.2

theorem WellFormed.entry?_of_mem {table : ImportTable} (wellFormed : table.WellFormed) {entry : Entry}
    (member : entry ∈ table.entries) : table.entry? entry.simple = some entry :=
  ImportTable.entry?_of_mem wellFormed.distinct member

theorem lookup_of_mem {table : ImportTable} (distinct : (table.entries.map (·.simple)).Nodup) {entry : Entry}
    (member : entry ∈ table.entries) : table.lookup entry.simple = some entry.qualified := by
  rw [lookup, entry?_of_mem distinct member]
  rfl

theorem WellFormed.lookup_of_mem {table : ImportTable} (wellFormed : table.WellFormed) {entry : Entry}
    (member : entry ∈ table.entries) : table.lookup entry.simple = some entry.qualified :=
  ImportTable.lookup_of_mem wellFormed.distinct member

theorem mem_promote {table : ImportTable} {simple : String} {entry : Entry}
    (member : entry ∈ (table.promote simple).entries) :
    ∃ earlier ∈ table.entries, entry = earlier ∨ entry = earlier.promote := by
  obtain ⟨earlier, inTable, rfl⟩ := List.mem_map.mp member
  refine ⟨earlier, inTable, ?_⟩
  split
  · exact .inr rfl
  · exact .inl rfl

/-- Only the entry whose type was asked for is promoted, as no other has its simple name. -/
theorem becomes_promoted {asked : String → Prop} {table : ImportTable}
    (distinct : (table.entries.map (·.simple)).Nodup) {simple qualified : String}
    (bound : table.lookup simple = some qualified) (forced : asked qualified) {entry : Entry}
    (member : entry ∈ table.entries) :
    entry.Becomes asked (if entry.simple = simple then entry.promote else entry) := by
  split
  · rename_i same
    rw [← same, lookup_of_mem distinct member] at bound
    exact Entry.becomes_promote (Option.some.inj bound ▸ forced)
  · exact .inl rfl

theorem simples_promote (table : ImportTable) (simple : String) :
    (table.promote simple).entries.map (·.simple) = table.entries.map (·.simple) := by
  rw [promote, List.map_map]
  refine List.map_congr_left fun entry _ => ?_
  dsimp only [Function.comp_apply]
  split
  · exact entry.simple_promote
  · rfl

theorem Step.wellFormed {asked : String → Prop} {table later : ImportTable} (step : table.Step asked later)
    (wellFormed : table.WellFormed) : later.WellFormed := by
  cases step with
  | @enter name standing free written qualified =>
    refine { wellFormed with distinct := ?_, named := ?_ }
    · rw [List.map_append, List.map_singleton, ← List.concat_eq_append]
      exact wellFormed.distinct.concat (lookup_eq_none_iff.mp free)
    · intro entry member
      rcases List.mem_append.mp member with old | new
      · exact wellFormed.named entry old
      · rw [List.mem_singleton.mp new]
        exact ⟨name.enclosing, written.isDotted, fun known => TypeName.enclosing_ne_nil (qualified known)⟩
  | @promote simple qualified bound forced =>
    refine { wellFormed with distinct := ?_, named := ?_ }
    · rw [simples_promote]
      exact wellFormed.distinct
    · intro entry member
      obtain ⟨earlier, inTable, rfl | rfl⟩ := mem_promote member
      · exact wellFormed.named entry inTable
      · obtain ⟨outer, spelled, long⟩ := wellFormed.named earlier inTable
        rw [Entry.simple_promote, Entry.qualified_promote]
        exact ⟨outer, spelled, fun known => long fun held => known (Entry.standing_promote_eq_held.mpr held)⟩
  | @addStatic name new written qualified =>
    refine { wellFormed with staticsDistinct := ?_, staticsNamed := ?_ }
    · rw [← List.concat_eq_append]
      exact wellFormed.staticsDistinct.concat new
    · intro text member
      rcases List.mem_append.mp member with old | added
      · exact wellFormed.staticsNamed text old
      · rw [List.mem_singleton.mp added]
        exact ⟨name.enclosing, name.simple, written.isDotted, TypeName.enclosing_ne_nil qualified⟩

theorem Steps.wellFormed {asked : String → Prop} {table later : ImportTable} (steps : table.Steps asked later)
    (wellFormed : table.WellFormed) : later.WellFormed := by
  induction steps with
  | refl => exact wellFormed
  | tail _ step ih => exact step.wellFormed ih

/-- A step leaves every entry in its place. -/
theorem Step.becomes {asked : String → Prop} {table later : ImportTable} (step : table.Step asked later)
    (wellFormed : table.WellFormed) {place : Nat} {entry : Entry} (here : table.entries[place]? = some entry) :
    ∃ kept, later.entries[place]? = some kept ∧ entry.Becomes asked kept := by
  cases step with
  | enter free written qualified =>
    obtain ⟨bound, -⟩ := List.getElem?_eq_some_iff.mp here
    exact ⟨entry, (List.getElem?_append_left bound).trans here, .inl rfl⟩
  | @promote simple qualified bound forced =>
    refine ⟨if entry.simple = simple then entry.promote else entry, ?_, ?_⟩
    · rw [ImportTable.promote, List.getElem?_map, here]
      rfl
    · exact becomes_promoted wellFormed.distinct bound forced (List.mem_of_getElem? here)
  | addStatic new written qualified => exact ⟨entry, here, .inl rfl⟩

theorem Steps.becomes {asked : String → Prop} {table later : ImportTable} (steps : table.Steps asked later)
    (wellFormed : table.WellFormed) {place : Nat} {entry : Entry} (here : table.entries[place]? = some entry) :
    ∃ kept, later.entries[place]? = some kept ∧ entry.Becomes asked kept := by
  induction steps with
  | refl => exact ⟨entry, here, .inl rfl⟩
  | tail earlier step ih =>
    obtain ⟨between, there, first⟩ := ih
    obtain ⟨kept, atEnd, second⟩ := step.becomes (Steps.wellFormed earlier wellFormed) there
    exact ⟨kept, atEnd, first.trans second⟩

/-- The tables that come about from the empty one by operations of any kind, with any failures. -/
inductive Reachable : ImportTable → Prop
  | empty : Reachable {}
  | run {table : ImportTable} {operation : Operation} :
      Reachable table → operation.IsBuilt → Reachable (operation.run table)

theorem Reachable.after {table : ImportTable} (reachable : table.Reachable) {history : List Operation}
    (built : ∀ operation ∈ history, operation.IsBuilt) : (table.after history).Reachable := by
  induction history generalizing table with
  | nil => exact reachable
  | cons operation rest ih =>
    exact ih (reachable.run (built operation (List.mem_cons_self ..)))
      fun other member => built other (List.mem_cons_of_mem _ member)

theorem Reachable.wellFormed {table : ImportTable} (reachable : table.Reachable) : table.WellFormed := by
  induction reachable with
  | empty => exact wellFormed_empty
  | run _ built ih => exact Steps.wellFormed (Operation.steps_run _ built) ih

theorem isBound_bind_iff (table : ImportTable) (name : TypeName) (standing : Standing) :
    (table.bind name standing).result.isBound = true ↔
      (table.bind name standing).table.lookup name.simple = some name.qualified := by
  rw [lookup_bind]
  rcases table.bind_cases name standing with ⟨free, result, -⟩ | ⟨bound, result, -⟩ | ⟨other, bound, differs, result, -⟩
  · simp [free, result, Outcome.isBound]
  · simp [bound, result, Outcome.isBound]
  · simp [bound, result, Outcome.isBound, differs]

/-- Every table that can come about is well formed. An operation on it, whatever its outcome, keeps
all simple names with their meanings and all static imports, each in its place; the only change to
an entry is that an implicit one becomes an import, and only if its very type is asked for. A name
is bound exactly if its simple name stands for it afterwards. -/
theorem Reachable.first_use_wins {table : ImportTable} (reachable : table.Reachable) :
    table.WellFormed ∧
      (∀ operation : Operation, operation.IsBuilt →
        table.meanings <+: (operation.run table).meanings ∧
        table.statics <+: (operation.run table).statics ∧
        ∀ (place : Nat) (entry : Entry), table.entries[place]? = some entry →
          ∃ kept, (operation.run table).entries[place]? = some kept ∧ entry.Becomes operation.AsksFor kept) ∧
      ∀ name standing, (table.bind name standing).result.isBound = true ↔
        (table.bind name standing).table.lookup name.simple = some name.qualified := by
  refine ⟨reachable.wellFormed, fun operation built => ?_, table.isBound_bind_iff⟩
  have grown := operation.grows_run table
  exact ⟨grown.meanings, grown.statics,
    fun _ _ here => Steps.becomes (Operation.steps_run table built) reachable.wellFormed here⟩

/-- `String` is implicit until it is asked for. -/
theorem Reachable.first_use_wins_string :
    let chain := Chain.ofUnit (.ofPackage "app")
    let table := ({} : ImportTable).after
      [.shorten chain "java.lang.String", .holdName "T", .importStatic "a.B.c"]
    let operation := Operation.importType "java.lang.String"
    table = ⟨[⟨"String", "java.lang.String", .implicit⟩, ⟨"T", "T", .held⟩], ["a.B.c"]⟩ ∧
      table.Reachable ∧ operation.IsBuilt ∧ table.WellFormed ∧
      (operation.run table).entries[0]? = some ⟨"String", "java.lang.String", .imported⟩ ∧
      Entry.Becomes operation.AsksFor ⟨"String", "java.lang.String", .implicit⟩
        ⟨"String", "java.lang.String", .imported⟩ := by
  intro chain table operation
  have known : table = ⟨[⟨"String", "java.lang.String", .implicit⟩, ⟨"T", "T", .held⟩], ["a.B.c"]⟩ := by
    decide +kernel
  have reachable : table.Reachable := Reachable.empty.after (by simp [Operation.IsBuilt])
  have imported : (operation.run table).entries[0]? = some ⟨"String", "java.lang.String", .imported⟩ := by
    decide +kernel
  obtain ⟨wellFormed, kept, -⟩ := reachable.first_use_wins
  obtain ⟨later, there, becomes⟩ := (kept operation trivial).2.2 0 _ (by rw [known]; rfl)
  rw [imported] at there
  exact ⟨known, reachable, trivial, wellFormed, imported, Option.some.inj there ▸ becomes⟩

end ImportTable

end ShortNames
