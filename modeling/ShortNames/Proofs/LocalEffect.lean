import ShortNames.Proofs.NamesInTurn

namespace ShortNames

/-- Two operations, each on a table of its own, answer and tell the same and put the same entries
behind those that they found. Nothing else changes in either table. -/
structure Recorded.SameEffect {α : Type} (table another : ImportTable) (first second : Recorded α) : Prop where
  result : second.result = first.result
  events : second.events = first.events
  added : ∃ added : List Entry, first.table = { table with entries := table.entries ++ added } ∧
    second.table = { another with entries := another.entries ++ added }

namespace Recorded.SameEffect

variable {α β : Type} {table another : ImportTable}

theorem unchanged (result : α) : SameEffect table another (table.unchanged result) (another.unchanged result) where
  result := rfl
  events := rfl
  added := ⟨[], by simp [ImportTable.unchanged]⟩

theorem map {first second : Recorded α} (same : SameEffect table another first second) (change : α → β) :
    SameEffect table another (first.map change) (second.map change) where
  result := congrArg change same.result
  events := same.events
  added := same.added

/-- Where a simple name is free in both tables, it is taken in both by the same entry. -/
theorem bind {name : TypeName} (free : table.lookup name.simple = none)
    (freeToo : another.lookup name.simple = none) (standing : Standing) :
    SameEffect table another (table.bind name standing) (another.bind name standing) := by
  rw [ImportTable.bind_of_free free, ImportTable.bind_of_free freeToo]
  exact ⟨rfl, rfl, [⟨name.simple, name.qualified, standing⟩], rfl, rfl⟩

/-- On one and the same table there is nothing left in which two such operations could differ. -/
theorem eq {first second : Recorded α} (same : SameEffect table table first second) : second = first := by
  obtain ⟨result, events, added, after, afterToo⟩ := same
  have tables : second.table = first.table := afterToo.trans after.symm
  cases first
  cases second
  rw [Recorded.mk.injEq]
  exact ⟨result, tables, events⟩

end Recorded.SameEffect

namespace Chain

open Recorded (SameEffect)

/-- Two positions, each a chain with a table, cannot be told apart by the simple name of a type and
by whether the type is seen. -/
structure AlikeFor (chain other : Chain) (table another : ImportTable) (name : TypeName) : Prop where
  scopes : other.lookup name.simple = chain.lookup name.simple
  seen : other.sees name = chain.sees name
  bound : another.lookup name.simple = table.lookup name.simple

instance (chain other : Chain) (table another : ImportTable) (name : TypeName) :
    Decidable (AlikeFor chain other table another name) :=
  decidable_of_iff (other.lookup name.simple = chain.lookup name.simple ∧ other.sees name = chain.sees name ∧
      another.lookup name.simple = table.lookup name.simple)
    ⟨fun ⟨scopes, seen, bound⟩ => ⟨scopes, seen, bound⟩, fun alike => ⟨alike.scopes, alike.seen, alike.bound⟩⟩

/-- Two positions are alike for every one of some names that has a qualifier to leave out. What
they make of any other name is left open. -/
def Alike (chain other : Chain) (table another : ImportTable) (names : List TypeName) : Prop :=
  ∀ name ∈ names, name.isShortenable = true → AlikeFor chain other table another name

instance (chain other : Chain) (table another : ImportTable) (names : List TypeName) :
    Decidable (Alike chain other table another names) :=
  inferInstanceAs (Decidable (∀ name ∈ names, name.isShortenable = true → AlikeFor chain other table another name))

section Positions

variable {chain other : Chain} {table another : ImportTable}

theorem asksTable_congr {name : TypeName}
    (alike : name.isShortenable = true → AlikeFor chain other table another name) :
    other.asksTable name = chain.asksTable name := by
  unfold asksTable
  cases shortenable : name.isShortenable with
  | false => rfl
  | true => rw [(alike shortenable).scopes]

theorem chooseSpelling_sameEffect {name : TypeName}
    (alike : name.isShortenable = true → AlikeFor chain other table another name) :
    SameEffect table another (chain.chooseSpelling table name) (other.chooseSpelling another name) := by
  unfold chooseSpelling
  cases primitive : name.primitive with
  | true => exact .unchanged _
  | false =>
    cases qualified : name.isQualified with
    | false => exact .unchanged _
    | true =>
      have same := alike (by simp [TypeName.isShortenable, primitive, qualified])
      have bound := same.bound
      rw [same.scopes, same.seen]
      cases chain.lookup name.simple with
      | some found => exact .unchanged _
      | none =>
        rw [bound]
        cases free : table.lookup name.simple with
        | some found => exact .unchanged _
        | none =>
          have freeToo := bound.trans free
          cases chain.sees name with
          | true => exact (SameEffect.bind free freeToo .implicit).map (spellingAfter .implicit)
          | false => exact (SameEffect.bind free freeToo .imported).map (spellingAfter .freshImport)

theorem shortenName_sameEffect {name : TypeName}
    (alike : name.isShortenable = true → AlikeFor chain other table another name) :
    SameEffect table another (chain.shortenName table name) (other.shortenName another name) := by
  have chosen := chooseSpelling_sameEffect alike
  unfold shortenName
  exact ⟨chosen.result, by simp only [chosen.result, chosen.events], chosen.added⟩

/-- What one name does to the tables leaves them alike for the names behind it, also for those that
share its simple name. -/
theorem Alike.tail {name : TypeName} {rest : List TypeName}
    (alike : Alike chain other table another (name :: rest)) :
    Alike chain other (chain.shortenName table name).table (other.shortenName another name).table rest := by
  intro later member shortenable
  have asks := asksTable_congr (alike name (List.mem_cons_self ..))
  have same := alike later (List.mem_cons_of_mem _ member) shortenable
  refine ⟨same.scopes, same.seen, ?_⟩
  change (other.chooseSpelling another name).table.lookup later.simple =
    (chain.chooseSpelling table name).table.lookup later.simple
  rw [lookup_chooseSpelling, lookup_chooseSpelling, same.bound, asks]

theorem shortenNames_sameEffect {names : List TypeName} (alike : Alike chain other table another names) :
    SameEffect table another (chain.shortenNames table names) (other.shortenNames another names) := by
  induction names generalizing table another with
  | nil => exact .unchanged []
  | cons name rest ih =>
    have first := shortenName_sameEffect (alike name (List.mem_cons_self ..))
    -- The rest starts from the tables that the first name has left, each with the same entry more.
    have others := ih alike.tail
    obtain ⟨entered, after, afterToo⟩ := first.added
    obtain ⟨more, final, finalToo⟩ := others.added
    refine ⟨?_, ?_, entered ++ more, final.trans ?_, finalToo.trans ?_⟩
    · simp only [shortenNames, first.result, others.result]
    · simp only [shortenNames, first.events, others.events]
    · rw [after, List.append_assoc]
    · rw [afterToo, List.append_assoc]

theorem shortenType_sameEffect {type : TypeExpr} (alike : Alike chain other table another type.names) :
    SameEffect table another (chain.shortenType table type) (other.shortenType another type) := by
  have decided := shortenNames_sameEffect alike
  have spelled : other.spelledNames another type.names = chain.spelledNames table type.names := by
    rw [spelledNames, spelledNames, decided.result]
  rw [shortenType_eq, shortenType_eq, spelled]
  exact decided.map _

end Positions

/-- A body that binds no simple name of some types cannot be told from no body by these. -/
theorem alike_push (chain : Chain) {scope : BodyScope} {names : List TypeName} (table : ImportTable)
    (silent : ∀ name ∈ names, name.isShortenable = true → scope.lookup name.simple = none) :
    Alike chain (chain.push (.body scope)) table table names := by
  intro name member shortenable
  have unbound : (Layer.body scope).lookup name.simple = none := silent name member shortenable
  exact ⟨by rw [lookup_push, unbound, Option.none_or], by rw [sees_push]; rfl, rfl⟩

/-- What shortening a reference does depends on nothing but the names in it that can be shortened:
what the scopes and the table know about their simple names, and whether the scopes see them. Two
positions that agree on this give the same text and the same new entries, and change nothing else.
So a body around a position is not noticed if it binds none of these simple names. -/
theorem shortenType_local (type : TypeExpr) :
    (∀ (chain other : Chain) (table another : ImportTable), Alike chain other table another type.names →
      SameEffect table another (chain.shortenType table type) (other.shortenType another type)) ∧
    ∀ (chain : Chain) (scope : BodyScope) (table : ImportTable),
      (∀ name ∈ type.names, name.isShortenable = true → scope.lookup name.simple = none) →
        (chain.push (.body scope)).shortenType table type = chain.shortenType table type := by
  refine ⟨fun chain other table another alike => shortenType_sameEffect alike, fun chain scope table silent => ?_⟩
  have alike := chain.alike_push table silent
  exact (shortenType_sameEffect alike).eq

/-- The positions differ in their packages, in what `T` means and in what was imported before. At
both the second `Map` finds the simple name taken by the first. -/
theorem shortenType_local_map :
    let type : TypeExpr := .generic (.named (.ofPath [("java", .dot), ("util", .dot)] "Map"))
      [.named (.ofPath [("a", .dot)] "Map"), .named (.ofPath [] "T"),
        .named (.ofPath [("java", .dot), ("lang", .dot)] "String")]
    let scope : BodyScope := ⟨.ofPath [("lib", .dot)] "Outer", Std.TreeMap.empty.insert "T" "T", ∅⟩
    let chain := Chain.ofUnit (.ofPackage "app")
    let other := (Chain.ofUnit (.ofPackage "lib")).push (.body scope)
    let another : ImportTable := ⟨[⟨"List", "java.util.List", .imported⟩], ["lib.Run.main"]⟩
    Alike chain other {} another type.names ∧
      (chain.shortenType {} type).result = "Map<a.Map,T,String>" ∧
      (other.shortenType another type).result = "Map<a.Map,T,String>" ∧
      (other.shortenType another type).table = { another with
        entries := another.entries ++ [⟨"Map", "java.util.Map", .imported⟩, ⟨"String", "java.lang.String", .implicit⟩] } ∧
      (chain.push (.body scope)).shortenType {} type = chain.shortenType {} type := by
  intro type scope chain other another
  obtain ⟨agreeing, enclosed⟩ := shortenType_local type
  have alike : Alike chain other {} another type.names := by decide +kernel
  have written : (chain.shortenType {} type).result = "Map<a.Map,T,String>" := by decide +kernel
  have entered : (chain.shortenType {} type).table =
      ⟨[⟨"Map", "java.util.Map", .imported⟩, ⟨"String", "java.lang.String", .implicit⟩], []⟩ := by decide +kernel
  obtain ⟨result, -, added, after, afterToo⟩ := agreeing chain other {} another alike
  rw [entered] at after
  cases after
  exact ⟨alike, written, result.trans written, afterToo, enclosed chain scope {} (by decide +kernel)⟩

end Chain

end ShortNames
