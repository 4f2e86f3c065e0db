import Std.Data.TreeMap
import ShortNames.TypeName.Reader

namespace ShortNames

/-- What a type puts in scope inside its body: itself, its member types and type parameters, and
behind those the member types that it inherits. -/
structure BodyScope where
  typeName : TypeName
  declared : Std.TreeMap String String
  inherited : Std.TreeMap String String

namespace BodyScope

def ofName (text : String) : Except Error BodyScope := do
  let name ← TypeName.parse text
  if name.primitive then
    .error (.badImport text .primitiveEnclosing)
  else
    return ⟨name, Std.TreeMap.empty.insert name.simple name.qualified, Std.TreeMap.empty⟩

def declareMember (scope : BodyScope) (simple : String) : Except Error BodyScope :=
  if isIdentifier simple then
    let qualified := scope.typeName.qualified ++ "." ++ simple
    .ok { scope with declared := scope.declared.insert simple qualified }
  else
    .error (.badImport simple .notIdentifier)

/-- A type parameter has no other name than its own. -/
def declareParameter (scope : BodyScope) (name : String) : Except Error BodyScope :=
  if isIdentifier name then
    .ok { scope with declared := scope.declared.insert name name }
  else
    .error (.badImport name .notIdentifier)

/-- Of several inherited types with one simple name the first stays. -/
def inheritMember (scope : BodyScope) (text : String) : Except Error BodyScope := do
  let name ← TypeName.parse text
  if name.isQualified then
    return { scope with inherited := scope.inherited.insertIfNew name.simple name.qualified }
  else
    .error (.badImport text .inheritedWithoutType)

/-- What the type declares hides what it inherits. -/
def lookup (scope : BodyScope) (simple : String) : Option String :=
  scope.declared[simple]?.or scope.inherited[simple]?

theorem ofName_eq_ok_iff {text : String} {scope : BodyScope} :
    ofName text = .ok scope ↔ ∃ name, TypeName.parse text = .ok name ∧ name.primitive = false ∧
      scope = ⟨name, Std.TreeMap.empty.insert name.simple name.qualified, Std.TreeMap.empty⟩ := by
  unfold ofName
  cases TypeName.parse text with
  | error error => simp [bind, Except.bind]
  | ok name =>
    cases primitive : name.primitive with
    | true => simp [bind, Except.bind, primitive]
    | false => simpa [bind, Except.bind, pure, Except.pure, primitive] using eq_comm

theorem declareMember_eq_ok_iff {scope extended : BodyScope} {simple : String} :
    scope.declareMember simple = .ok extended ↔ isIdentifier simple = true ∧
      extended = { scope with declared := scope.declared.insert simple (scope.typeName.qualified ++ "." ++ simple) } := by
  unfold declareMember
  cases isIdentifier simple <;> simp [eq_comm]

theorem declareParameter_eq_ok_iff {scope extended : BodyScope} {name : String} :
    scope.declareParameter name = .ok extended ↔ isIdentifier name = true ∧
      extended = { scope with declared := scope.declared.insert name name } := by
  unfold declareParameter
  cases isIdentifier name <;> simp [eq_comm]

theorem inheritMember_eq_ok_iff {scope extended : BodyScope} {text : String} :
    scope.inheritMember text = .ok extended ↔ ∃ name, TypeName.parse text = .ok name ∧ name.isQualified = true ∧
      extended = { scope with inherited := scope.inherited.insertIfNew name.simple name.qualified } := by
  unfold inheritMember
  cases TypeName.parse text with
  | error error => simp [bind, Except.bind]
  | ok name =>
    cases qualified : name.isQualified with
    | false => simp [bind, Except.bind, qualified]
    | true => simpa [bind, Except.bind, pure, Except.pure, qualified] using eq_comm

theorem lookup_ofName {text : String} {scope : BodyScope} (built : ofName text = .ok scope)
    (simple : String) :
    scope.lookup simple =
      if scope.typeName.simple = simple then some scope.typeName.qualified else none := by
  obtain ⟨name, -, -, rfl⟩ := ofName_eq_ok_iff.mp built
  simp [lookup, Std.TreeMap.getElem?_insert]

theorem lookup_declareMember {scope extended : BodyScope} {simple : String}
    (declared : scope.declareMember simple = .ok extended) (other : String) :
    extended.lookup other =
      if simple = other then some (scope.typeName.qualified ++ "." ++ simple)
      else scope.lookup other := by
  obtain ⟨-, rfl⟩ := declareMember_eq_ok_iff.mp declared
  by_cases same : simple = other <;> simp [lookup, Std.TreeMap.getElem?_insert, same]

theorem lookup_declareParameter {scope extended : BodyScope} {name : String}
    (declared : scope.declareParameter name = .ok extended) (other : String) :
    extended.lookup other = if name = other then some name else scope.lookup other := by
  obtain ⟨-, rfl⟩ := declareParameter_eq_ok_iff.mp declared
  by_cases same : name = other <;> simp [lookup, Std.TreeMap.getElem?_insert, same]

/-- An inherited type is found only under a simple name that meant nothing before. -/
theorem lookup_inheritMember {scope extended : BodyScope} {text : String}
    (inherited : scope.inheritMember text = .ok extended) :
    ∃ name, TypeName.parse text = .ok name ∧ ∀ other, extended.lookup other =
      (scope.lookup other).or (if name.simple = other then some name.qualified else none) := by
  obtain ⟨name, parsed, -, rfl⟩ := inheritMember_eq_ok_iff.mp inherited
  refine ⟨name, parsed, fun other => ?_⟩
  simp only [lookup, Std.TreeMap.getElem?_insertIfNew, Option.or_assoc]
  congr 1
  by_cases same : name.simple = other
  · subst same
    by_cases known : name.simple ∈ scope.inherited <;> simp [known]
  · simp [same]

end BodyScope

end ShortNames
