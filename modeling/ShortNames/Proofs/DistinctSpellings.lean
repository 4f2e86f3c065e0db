import ShortNames.Proofs.TableInvariant

namespace ShortNames

/-- A full name with a qualifier cannot be mistaken for a simple name. -/
theorem TypeName.IsWritten.qualified_ne_simple {name other : TypeName} (written : name.IsWritten)
    (qualified : name.isQualified = true) (writtenToo : other.IsWritten) : name.qualified ≠ other.simple := by
  intro same
  have alone : dotted ([] ++ [other.simple]) = other.simple := String.intercalate_singleton
  have valid : ∀ piece ∈ [] ++ [other.simple], isIdentifier piece = true := fun piece member =>
    writtenToo piece (List.mem_append_right _ member)
  exact TypeName.enclosing_ne_nil qualified (TypeName.dotted_inj written valid (same.trans alone.symm)).1

namespace Chain

/-- Names with the texts that they get when they are spelled one after another. -/
def spellEach (chain : Chain) (table : ImportTable) : List TypeName → List (TypeName × String)
  | [] => []
  | name :: rest =>
    let chosen := chain.shortenName table name
    (name, chosen.result.text name) :: chain.spellEach chosen.table rest

theorem spellEach_eq_map {chain : Chain} {table later : ImportTable} {names : List TypeName}
    (grown : (chain.tableAfter table names).Grows later) :
    chain.spellEach table names = names.map fun name => (name, chain.spell later name) := by
  induction names generalizing table with
  | nil => rfl
  | cons name rest ih =>
    let next := (chain.chooseSpelling table name).table
    have afterFirst : next.Grows later := (chain.grows_tableAfter next rest).trans grown
    have settled : (chain.chooseSpelling table name).result.text name = chain.spell later name := by
      rw [chooseSpelling_text, ← spell_chooseSpelling]
      exact ((chain.knows_chooseSpelling table name).spell_of_grows afterFirst).symm
    have others : chain.spellEach next rest = rest.map fun name => (name, chain.spell later name) := ih grown
    rw [List.map_cons, ← settled, ← others]
    rfl

/-- A name without a qualifier reads like the simple name of a type, and that type is what the
simple name means. -/
def IsHomonym (chain : Chain) (table : ImportTable) (bare full : TypeName) : Prop :=
  bare.isQualified = false ∧ full.isQualified = true ∧ bare.qualified = full.simple ∧
    chain.meaning table full.simple = some full.qualified

section Known

variable {chain : Chain} {table : ImportTable} {first second : TypeName}

/-- A name that is known is spelled in full, or its simple name means itself. -/
theorem Knows.spell_cases (knows : chain.Knows table first) (built : first.IsBuilt) :
    chain.spell table first = first.qualified ∨
      first.isQualified = true ∧ first.IsWritten ∧ chain.spell table first = first.simple ∧
        chain.meaning table first.simple = some first.qualified := by
  unfold spell
  cases inFull : chain.writesInFull table first with
  | true => exact .inl rfl
  | false =>
    cases qualified : first.isQualified with
    | false => exact .inl (TypeName.qualified_of_not_isQualified qualified).symm
    | true =>
      exact .inr ⟨rfl, built.isWritten_of_isQualified qualified, rfl,
        knows.meaning_eq (built.isShortenable qualified) inFull⟩

/-- Only a name without a qualifier has the simple name of another type as its full name. -/
theorem isHomonym_of_eq_simple (built : first.IsBuilt) (qualified : second.isQualified = true)
    (written : second.IsWritten) (same : first.qualified = second.simple)
    (means : chain.meaning table second.simple = some second.qualified) : chain.IsHomonym table first second := by
  refine ⟨?_, qualified, same, means⟩
  cases qualifiedToo : first.isQualified with
  | false => rfl
  | true =>
    have writtenToo := built.isWritten_of_isQualified qualifiedToo
    exact absurd same (writtenToo.qualified_ne_simple qualifiedToo written)

/-- Two names that are known read alike only if they are the same or homonyms. -/
theorem Knows.homonym_of_spell_eq (knows : chain.Knows table first) (knowsToo : chain.Knows table second)
    (built : first.IsBuilt) (builtToo : second.IsBuilt)
    (same : chain.spell table first = chain.spell table second) :
    first.qualified = second.qualified ∨ chain.IsHomonym table first second ∨
      chain.IsHomonym table second first := by
  rcases knows.spell_cases built with full | ⟨qualified, written, short, means⟩
  · rcases knowsToo.spell_cases builtToo with fullToo | ⟨qualifiedToo, writtenToo, shortToo, meansToo⟩
    · exact .inl (full.symm.trans (same.trans fullToo))
    · have reads : first.qualified = second.simple := full.symm.trans (same.trans shortToo)
      exact .inr (.inl (isHomonym_of_eq_simple built qualifiedToo writtenToo reads meansToo))
  · rcases knowsToo.spell_cases builtToo with fullToo | ⟨qualifiedToo, writtenToo, shortToo, meansToo⟩
    · have reads : second.qualified = first.simple := fullToo.symm.trans (same.symm.trans short)
      exact .inr (.inr (isHomonym_of_eq_simple builtToo qualified written reads means))
    · -- One text, so one simple name, and that has one meaning.
      rw [← short, same, shortToo, meansToo] at means
      exact .inl (Option.some.inj means).symm

end Known

/-- Names that are shortened one after another, in whatever references, are spelled by one rule
from the first to the last. It tells two names with different full names apart, unless one of
them has no qualifier and is spelled as it is given, and the other is what that very word means as
a simple name. -/
theorem shortenAll_unambiguous (chain : Chain) (table : ImportTable) (types : List TypeExpr)
    (built : ∀ name ∈ TypeExpr.namesAll types, name.IsBuilt) :
    let run := chain.shortenAll table types
    let texts := chain.spellEach table (TypeExpr.namesAll types)
    (∃ spell : TypeName → String, run.result = TypeExpr.renderAllWith spell types ∧
      texts = (TypeExpr.namesAll types).map fun name => (name, spell name)) ∧
    ∀ first second text, (first, text) ∈ texts → (second, text) ∈ texts →
      first.qualified = second.qualified ∨ chain.IsHomonym run.table first second ∨
        chain.IsHomonym run.table second first := by
  intro run texts
  have after : run.table = chain.tableAfter table (TypeExpr.namesAll types) := chain.shortenAll_table table types
  have spelled : texts = (TypeExpr.namesAll types).map fun name => (name, chain.spell run.table name) :=
    spellEach_eq_map (after ▸ .refl _)
  have known {name : TypeName} {text : String} (member : (name, text) ∈ texts) :
      name.IsBuilt ∧ chain.Knows run.table name ∧ chain.spell run.table name = text := by
    rw [spelled] at member
    obtain ⟨other, inNames, same⟩ := List.mem_map.mp member
    cases same
    refine ⟨built name inNames, ?_, rfl⟩
    rw [after]
    exact chain.knows_tableAfter table _ name inNames
  refine ⟨⟨chain.spell run.table, chain.shortenAll_result run.table types table (.refl _), spelled⟩, ?_⟩
  intro first second text inTexts inTextsToo
  obtain ⟨builtFirst, knows, reads⟩ := known inTexts
  obtain ⟨builtSecond, knowsToo, readsToo⟩ := known inTextsToo
  exact knows.homonym_of_spell_eq knowsToo builtFirst builtSecond (reads.trans readsToo.symm)

/-- The word `List` comes first and is no type that could be imported, so `java.util.List` still
gets its simple name. -/
theorem shortenAll_unambiguous_list :
    let chain := Chain.ofUnit (.ofPackage "app")
    let bare : TypeName := .ofPath [] "List"
    let full : TypeName := .ofPath [("java", .dot), ("util", .dot)] "List"
    let other : TypeName := .ofPath [("a", .dot)] "List"
    let types : List TypeExpr := [.named bare, .generic (.named full) [.named other]]
    let run := chain.shortenAll {} types
    (∀ name ∈ TypeExpr.namesAll types, name.IsBuilt) ∧ run.result = ["List", "List<a.List>"] ∧
      chain.spellEach {} (TypeExpr.namesAll types) = [(bare, "List"), (full, "List"), (other, "a.List")] ∧
      chain.IsHomonym run.table bare full := by
  intro chain bare full other types run
  have first : TypeExpr.parse "List" = .ok (.named bare) := eq_ok_of_toOption (by decide +kernel)
  have second : TypeExpr.parse "java.util.List<a.List>" = .ok (.generic (.named full) [.named other]) :=
    eq_ok_of_toOption (by decide +kernel)
  have built : ∀ name ∈ TypeExpr.namesAll types, name.IsBuilt := by
    intro name member
    rcases List.mem_cons.mp member with rfl | later
    · exact .inReference first (List.mem_singleton_self _)
    · exact .inReference second later
  have result : run.result = ["List", "List<a.List>"] := by decide +kernel
  have texts : chain.spellEach {} (TypeExpr.namesAll types) =
      [(bare, "List"), (full, "List"), (other, "a.List")] := by
    decide +kernel
  obtain ⟨-, apart⟩ := shortenAll_unambiguous chain {} types built
  rw [texts] at apart
  rcases apart bare full "List" (by simp) (by simp) with same | homonym | ⟨bareToo, -⟩
  · exact absurd same (by decide +kernel)
  · exact ⟨built, result, texts, homonym⟩
  · exact absurd bareToo (by decide +kernel)

/-- A name without a qualifier stays as it is, and a type whose simple name reads like it may be
shortened all the same. -/
theorem spellEach_ambiguous :
    ¬ ∀ (chain : Chain) (table : ImportTable), table.Reachable → ∀ types : List TypeExpr,
      (∀ name ∈ TypeExpr.namesAll types, name.IsBuilt) → ∀ first second text,
        (first, text) ∈ chain.spellEach table (TypeExpr.namesAll types) →
        (second, text) ∈ chain.spellEach table (TypeExpr.namesAll types) →
          first.qualified = second.qualified := by
  intro distinct
  let bare : TypeName := .ofPath [] "List"
  let full : TypeName := .ofPath [("java", .dot), ("util", .dot)] "List"
  have read : TypeName.parse "List" = .ok bare := eq_ok_of_toOption (by decide +kernel)
  have readToo : TypeName.parse "java.util.List" = .ok full := eq_ok_of_toOption (by decide +kernel)
  have built : ∀ name ∈ [bare, full], name.IsBuilt := by
    intro name member
    rcases List.mem_pair.mp member with rfl | rfl
    · exact .read read
    · exact .read readToo
  have texts : (Chain.ofUnit (.ofPackage "app")).spellEach {} [bare, full] = [(bare, "List"), (full, "List")] := by
    decide +kernel
  have same := distinct (Chain.ofUnit (.ofPackage "app")) {} .empty [.named bare, .named full] built bare full "List"
    (List.mem_of_mem_head? (congrArg List.head? texts)) (List.mem_of_getLast? (congrArg List.getLast? texts))
  exact absurd same (by decide +kernel)

end Chain

end ShortNames
