import ShortNames.Proofs.TableHistory

namespace ShortNames.Chain

/-- The simple name of a name has a meaning, if its spelling depends on one at all. -/
def Knows (chain : Chain) (table : ImportTable) (name : TypeName) : Prop :=
  name.isShortenable = true → (chain.meaning table name.simple).isSome = true

theorem meaning_of_grows {chain : Chain} {earlier later : ImportTable} (grown : earlier.Grows later)
    {simple qualified : String} (known : chain.meaning earlier simple = some qualified) :
    chain.meaning later simple = some qualified := by
  unfold meaning at known ⊢
  cases inScope : chain.lookup simple with
  | some found => simpa [inScope] using known
  | none =>
    simp only [inScope, Option.none_or] at known ⊢
    exact grown.lookup known

theorem knows_chooseSpelling (chain : Chain) (table : ImportTable) (name : TypeName) :
    chain.Knows (chain.chooseSpelling table name).table name := by
  intro shortenable
  unfold meaning
  rw [lookup_chooseSpelling]
  cases inScope : chain.lookup name.simple with
  | some found => rfl
  | none => simp [asksTable, shortenable, inScope]

theorem Knows.of_grows {chain : Chain} {earlier later : ImportTable} {name : TypeName}
    (knows : chain.Knows earlier name) (grown : earlier.Grows later) : chain.Knows later name := by
  intro shortenable
  obtain ⟨found, known⟩ := Option.isSome_iff_exists.mp (knows shortenable)
  rw [meaning_of_grows grown known]
  rfl

/-- A name that is known is spelled alike from then on. -/
theorem Knows.spell_of_grows {chain : Chain} {earlier later : ImportTable} {name : TypeName}
    (knows : chain.Knows earlier name) (grown : earlier.Grows later) :
    chain.spell later name = chain.spell earlier name := by
  unfold spell writesInFull
  cases shortenable : name.isShortenable with
  | false => rfl
  | true =>
    obtain ⟨found, known⟩ := Option.isSome_iff_exists.mp (knows shortenable)
    rw [known, meaning_of_grows grown known]

theorem Knows.chooseSpelling_table {chain : Chain} {table : ImportTable} {name : TypeName}
    (knows : chain.Knows table name) : (chain.chooseSpelling table name).table = table := by
  rw [Chain.chooseSpelling_table]
  split
  · rename_i free
    obtain ⟨asks, unbound⟩ := free
    simp only [asksTable, Bool.and_eq_true, Option.isNone_iff_eq_none] at asks
    have known := knows asks.1
    simp [meaning, asks.2, unbound] at known
  · rfl

/-- Entering a name does not change its own spelling: it was short before, as nothing was known
against it, and is short afterwards, as the entry is its own. -/
theorem spell_chooseSpelling (chain : Chain) (table : ImportTable) (name : TypeName) :
    chain.spell (chain.chooseSpelling table name).table name = chain.spell table name := by
  by_cases knows : chain.Knows table name
  · exact knows.spell_of_grows (chain.grows_chooseSpelling table name)
  · simp only [Knows, Classical.not_imp, Bool.not_eq_true, Option.isSome_eq_false_iff,
      Option.isNone_iff_eq_none] at knows
    obtain ⟨shortenable, unknown⟩ := knows
    have free := unknown
    simp only [meaning, Option.or_eq_none_iff] at free
    have entered : chain.meaning (chain.chooseSpelling table name).table name.simple =
        some name.qualified := by
      unfold meaning
      rw [lookup_chooseSpelling]
      simp [asksTable, shortenable, free.1, free.2]
    simp [spell, writesInFull, unknown, entered]

theorem knows_tableAfter (chain : Chain) (table : ImportTable) (names : List TypeName) :
    ∀ name ∈ names, chain.Knows (chain.tableAfter table names) name := by
  induction names generalizing table with
  | nil => intro name member; cases member
  | cons first rest ih =>
    intro name member
    rcases List.mem_cons.mp member with rfl | member
    · exact (chain.knows_chooseSpelling table name).of_grows (chain.grows_tableAfter _ rest)
    · exact ih _ name member

theorem tableAfter_eq_self {chain : Chain} {table : ImportTable} {names : List TypeName}
    (knows : ∀ name ∈ names, chain.Knows table name) : chain.tableAfter table names = table := by
  induction names with
  | nil => rfl
  | cons first rest ih =>
    rw [tableAfter_cons, (knows first (List.mem_cons_self ..)).chooseSpelling_table]
    exact ih fun name member => knows name (List.mem_cons_of_mem _ member)

mutual
/-- The text that a reference gets can be read off any later table: it is the reference with
every name spelled as that table spells it. -/
theorem shortenType_result (chain : Chain) (later : ImportTable) :
    (type : TypeExpr) → (table : ImportTable) → (chain.shortenType table type).table.Grows later →
      (chain.shortenType table type).result = type.renderWith (chain.spell later)
  | .named name, table, grown => by
    have entered := (chain.knows_chooseSpelling table name).spell_of_grows grown
    rw [spell_chooseSpelling] at entered
    exact (chain.chooseSpelling_text table name).trans entered.symm
  | .generic head args, table, grown => by
    have afterHead : (chain.shortenType table head).table.Grows later := by
      have rest := chain.grows_tableAfter (chain.shortenType table head).table (TypeExpr.namesAll args)
      rw [← shortenAll_table] at rest
      exact rest.trans grown
    simp only [shortenType, TypeExpr.renderWith]
    rw [shortenType_result chain later head table afterHead, shortenAll_result chain later args _ grown]
  | .inner outer name, table, grown => by
    exact congrArg (TypeExpr.writeInner · name) (shortenType_result chain later outer table grown)
  | .array element dims, table, grown => by
    exact congrArg (TypeExpr.writeArray · dims) (shortenType_result chain later element table grown)
  | .anything, _, _ => rfl
  | .bounded bound limit, table, grown => by
    exact congrArg (TypeExpr.writeBounded bound) (shortenType_result chain later limit table grown)

theorem shortenAll_result (chain : Chain) (later : ImportTable) :
    (types : List TypeExpr) → (table : ImportTable) → (chain.shortenAll table types).table.Grows later →
      (chain.shortenAll table types).result = TypeExpr.renderAllWith (chain.spell later) types
  | [], _, _ => rfl
  | type :: others, table, grown => by
    have afterFirst : (chain.shortenType table type).table.Grows later := by
      have rest := chain.grows_tableAfter (chain.shortenType table type).table (TypeExpr.namesAll others)
      rw [← shortenAll_table] at rest
      exact rest.trans grown
    simp only [shortenAll, TypeExpr.renderAllWith]
    rw [shortenType_result chain later type table afterFirst, shortenAll_result chain later others _ grown]
end

/-- A reference that was shortened once keeps its text for good. Whatever happens to the table in
between, with whatever chains, the same chain gives the same text again and leaves the table as
it finds it. Without anything in between this is idempotence. -/
theorem shortenType_stable (chain : Chain) (table : ImportTable) (type : TypeExpr)
    (history : List Operation) :
    let first := chain.shortenType table type
    let later := first.table.after history
    let again := chain.shortenType later type
    again.result = first.result ∧ again.table = later := by
  intro first later again
  have grown : first.table.Grows later := first.table.grows_after history
  have unchanged : again.table = later := by
    change (chain.shortenType later type).table = later
    rw [shortenType_table]
    refine tableAfter_eq_self fun name member => ?_
    have knows := chain.knows_tableAfter table type.names name member
    rw [← shortenType_table] at knows
    exact knows.of_grows grown
  refine ⟨?_, unchanged⟩
  have settled : again.table.Grows later := by
    rw [unchanged]
    exact .refl later
  have firstText := chain.shortenType_result later type table grown
  have againText := chain.shortenType_result later type later settled
  exact againText.trans firstText.symm

end ShortNames.Chain
