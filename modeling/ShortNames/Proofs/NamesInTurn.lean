import ShortNames.Proofs.NameChoice
import ShortNames.Proofs.Respelling

namespace ShortNames

namespace TypeName

/-- What stands in the place of a name that was spelled: its simple name alone, or the name itself. -/
def spelledAs (name : TypeName) (spelling : Spelling) : TypeName :=
  if spelling.isShort then name.bare else name

theorem qualified_spelledAs (name : TypeName) (spelling : Spelling) :
    (name.spelledAs spelling).qualified = spelling.text name := by
  unfold spelledAs Spelling.text
  split
  · exact name.qualified_bare
  · rfl

end TypeName

namespace TypeExpr

mutual
/-- The reference with the names of a list in the places of its own, in the order in which these are
visited. A place for which the list is too short keeps its name. -/
def withNames : TypeExpr → List TypeName → TypeExpr
  | .named name, names => .named (names.headD name)
  | .generic head args, names =>
    .generic (head.withNames names) (withNamesAll args (names.drop head.names.length))
  | .inner outer name, names => .inner (outer.withNames names) name
  | .array element dims, names => .array (element.withNames names) dims
  | .anything, _ => .anything
  | .bounded bound limit, names => .bounded bound (limit.withNames names)

def withNamesAll : List TypeExpr → List TypeName → List TypeExpr
  | [], _ => []
  | type :: rest, names => type.withNames names :: withNamesAll rest (names.drop type.names.length)
end

mutual
/-- A reference takes no more names than it has places. -/
theorem withNames_append : (type : TypeExpr) → (own more : List TypeName) →
    type.names.length ≤ own.length → type.withNames (own ++ more) = type.withNames own
  | .named _, _ :: _, _, _ => rfl
  | .generic head args, own, more, enough => by
    rw [names, List.length_append] at enough
    have atHead := withNames_append head own more (by omega)
    have atArgs := withNamesAll_append args (own.drop head.names.length) more (by simp; omega)
    rw [withNames, atHead, List.drop_append_of_le_length (by omega), atArgs, ← withNames]
  | .inner outer name, own, more, enough => congrArg (inner · name) (withNames_append outer own more enough)
  | .array element dims, own, more, enough => congrArg (array · dims) (withNames_append element own more enough)
  | .anything, _, _, _ => rfl
  | .bounded bound limit, own, more, enough => congrArg (bounded bound) (withNames_append limit own more enough)

theorem withNamesAll_append : (types : List TypeExpr) → (own more : List TypeName) →
    (namesAll types).length ≤ own.length → withNamesAll types (own ++ more) = withNamesAll types own
  | [], _, _, _ => rfl
  | type :: rest, own, more, enough => by
    rw [namesAll, List.length_append] at enough
    have atFirst := withNames_append type own more (by omega)
    have atRest := withNamesAll_append rest (own.drop type.names.length) more (by simp; omega)
    rw [withNamesAll, atFirst, List.drop_append_of_le_length (by omega), atRest, ← withNamesAll]
end

theorem withNames_generic (head : TypeExpr) (args : List TypeExpr) {own : List TypeName}
    (fits : own.length = head.names.length) (more : List TypeName) :
    (generic head args).withNames (own ++ more) = .generic (head.withNames own) (withNamesAll args more) := by
  rw [withNames, withNames_append head own more (Nat.le_of_eq fits.symm), ← fits, List.drop_left]

theorem withNamesAll_cons (type : TypeExpr) (rest : List TypeExpr) {own : List TypeName}
    (fits : own.length = type.names.length) (more : List TypeName) :
    withNamesAll (type :: rest) (own ++ more) = type.withNames own :: withNamesAll rest more := by
  rw [withNamesAll, withNames_append type own more (Nat.le_of_eq fits.symm), ← fits, List.drop_left]

theorem withNames_take (type : TypeExpr) {names : List TypeName} (enough : type.names.length ≤ names.length) :
    type.withNames (names.take type.names.length) = type.withNames names := by
  have whole := withNames_append type (names.take type.names.length) (names.drop type.names.length) (by simp [enough])
  rw [← whole, List.take_append_drop]

mutual
/-- If there is one name for each place, these are the names that are visited afterwards. -/
theorem names_withNames : (type : TypeExpr) → {own : List TypeName} →
    own.length = type.names.length → (type.withNames own).names = own
  | .named _, [_], _ => rfl
  | .generic head args, own, fits => by
    rw [names, List.length_append] at fits
    have atHead : (head.withNames (own.take head.names.length)).names = own.take head.names.length :=
      names_withNames head (by simp; omega)
    have atArgs : namesAll (withNamesAll args (own.drop head.names.length)) = own.drop head.names.length :=
      namesAll_withNamesAll args (by simp; omega)
    rw [withNames_take head (by omega)] at atHead
    rw [withNames, names, atHead, atArgs, List.take_append_drop]
  | .inner outer _, _, fits => names_withNames outer fits
  | .array element _, _, fits => names_withNames element fits
  | .anything, [], _ => rfl
  | .bounded _ limit, _, fits => names_withNames limit fits

theorem namesAll_withNamesAll : (types : List TypeExpr) → {own : List TypeName} →
    own.length = (namesAll types).length → namesAll (withNamesAll types own) = own
  | [], [], _ => rfl
  | type :: rest, own, fits => by
    rw [namesAll, List.length_append] at fits
    have atFirst : (type.withNames (own.take type.names.length)).names = own.take type.names.length :=
      names_withNames type (by simp; omega)
    have atRest : namesAll (withNamesAll rest (own.drop type.names.length)) = own.drop type.names.length :=
      namesAll_withNamesAll rest (by simp; omega)
    rw [withNames_take type (by omega)] at atFirst
    rw [withNamesAll, namesAll, atFirst, atRest, List.take_append_drop]
end

end TypeExpr

namespace Chain

/-- Decides on names one after another, each with the table that the one before it has left. -/
def shortenNames (chain : Chain) (table : ImportTable) : List TypeName → Recorded (List Spelling)
  | [] => table.unchanged []
  | name :: rest =>
    let first := chain.shortenName table name
    let others := chain.shortenNames first.table rest
    { result := first.result :: others.result
      table := others.table
      events := first.events ++ others.events }

theorem length_shortenNames (chain : Chain) (table : ImportTable) (names : List TypeName) :
    (chain.shortenNames table names).result.length = names.length := by
  induction names generalizing table with
  | nil => rfl
  | cons name rest ih => exact congrArg (· + 1) (ih _)

theorem shortenNames_append (chain : Chain) (table : ImportTable) (names more : List TypeName) :
    chain.shortenNames table (names ++ more) =
      let first := chain.shortenNames table names
      let others := chain.shortenNames first.table more
      ⟨first.result ++ others.result, others.table, first.events ++ others.events⟩ := by
  induction names generalizing table with
  | nil => rfl
  | cons name rest ih =>
    simp only [List.cons_append, shortenNames, ih, List.append_assoc]

/-- The names in their places when each is spelled as it was decided. -/
def spelledNames (chain : Chain) (table : ImportTable) (names : List TypeName) : List TypeName :=
  List.zipWith TypeName.spelledAs names (chain.shortenNames table names).result

theorem length_spelledNames (chain : Chain) (table : ImportTable) (names : List TypeName) :
    (chain.spelledNames table names).length = names.length := by
  rw [spelledNames, List.length_zipWith, length_shortenNames, Nat.min_self]

theorem spelledNames_append (chain : Chain) (table : ImportTable) (names more : List TypeName) :
    chain.spelledNames table (names ++ more) =
      chain.spelledNames table names ++
        chain.spelledNames (chain.shortenNames table names).table more := by
  rw [spelledNames, shortenNames_append]
  exact List.zipWith_append (chain.length_shortenNames table names).symm

mutual
/-- A reference is shortened by deciding on its names in turn, and its text is that of the reference
in which each name stands as it was decided. -/
theorem shortenType_eq (chain : Chain) (table : ImportTable) : (type : TypeExpr) →
    chain.shortenType table type = (chain.shortenNames table type.names).map
      fun _ => (type.withNames (chain.spelledNames table type.names)).render
  | .named name => by
    simp only [shortenType, TypeExpr.names, shortenNames, ImportTable.unchanged, List.append_nil, Recorded.map,
      ← TypeName.qualified_spelledAs]
    rfl
  | .generic head args => by
    have fits := chain.length_spelledNames table head.names
    rw [TypeExpr.names, spelledNames_append, TypeExpr.withNames_generic head args fits, shortenNames_append]
    simp only [shortenType, shortenType_eq chain table head, shortenAll_eq chain _ args]
    rfl
  | .inner outer name => by
    rw [shortenType, shortenType_eq chain table outer]
    rfl
  | .array element dims => by
    rw [shortenType, shortenType_eq chain table element]
    rfl
  | .anything => rfl
  | .bounded bound limit => by
    rw [shortenType, shortenType_eq chain table limit]
    rfl

theorem shortenAll_eq (chain : Chain) (table : ImportTable) : (types : List TypeExpr) →
    chain.shortenAll table types = (chain.shortenNames table (TypeExpr.namesAll types)).map
      fun _ => TypeExpr.renderAllWith TypeName.qualified
        (TypeExpr.withNamesAll types (chain.spelledNames table (TypeExpr.namesAll types)))
  | [] => rfl
  | type :: rest => by
    have fits := chain.length_spelledNames table type.names
    rw [TypeExpr.namesAll, spelledNames_append, TypeExpr.withNamesAll_cons type rest fits, shortenNames_append]
    simp only [shortenAll, shortenType_eq chain table type, shortenAll_eq chain _ rest]
    rfl
end

/-- Shortening a reference, visiting its names and writing it out go over the same names in the same
order. What is left of the table is what is left by deciding on the names in turn, and the text is the
full text of the reference in which each name has been replaced, in its own place, by its simple name
or by itself as the decision on it says. No shape of references is left out, also none that is never
read. -/
theorem shortenType_name_by_name (chain : Chain) (table : ImportTable) (type : TypeExpr) :
    let decided := chain.shortenNames table type.names
    let spelled := List.zipWith TypeName.spelledAs type.names decided.result
    let short := chain.shortenType table type
    short.table = decided.table ∧ short.events = decided.events ∧
      short.result = (type.withNames spelled).render ∧ (type.withNames spelled).names = spelled := by
  intro decided spelled short
  have whole : short = decided.map fun _ => (type.withNames spelled).render := chain.shortenType_eq table type
  refine ⟨congrArg Recorded.table whole, congrArg Recorded.events whole, congrArg Recorded.result whole, ?_⟩
  exact type.names_withNames (chain.length_spelledNames table type.names)

end Chain

end ShortNames
