import ShortNames.Scope.Body
import ShortNames.Scope.Unit

namespace ShortNames

/-- A scope of some other kind, of which only the answers are known. What it does not say it does
not know. -/
structure ForeignScope where
  lookup : String → Option String
  sees : TypeName → Bool := fun _ => false
  package? : Option String := none

inductive Layer
  | unit (scope : UnitScope)
  | body (scope : BodyScope)
  | foreign (scope : ForeignScope)

namespace Layer

def lookup (layer : Layer) (simple : String) : Option String :=
  match layer with
  | .unit scope => scope.lookup simple
  | .body scope => scope.lookup simple
  | .foreign scope => scope.lookup simple

/-- Whether a type needs no import because of the package that it is in. -/
def sees (layer : Layer) (name : TypeName) : Bool :=
  match layer with
  | .unit scope => scope.sees name
  | .body _ => false
  | .foreign scope => scope.sees name

/-- The package that is generated, for a layer that takes the place of the unit. -/
def package? : Layer → Option String
  | .unit scope => some scope.package
  | .body _ => none
  | .foreign scope => scope.package?

end Layer

/-- The scopes around a position, from the innermost to the one that holds them all, which knows the
package. -/
structure Chain where
  inner : List Layer
  outermost : Layer
  reports : outermost.package?.isSome = true

namespace Chain

def ofUnit (unit : UnitScope) : Chain where
  inner := []
  outermost := .unit unit
  reports := rfl

/-- A scope inside all others, of whatever kind it is. -/
def push (chain : Chain) (layer : Layer) : Chain :=
  { chain with inner := layer :: chain.inner }

def layers (chain : Chain) : List Layer :=
  chain.inner ++ [chain.outermost]

/-- The chain with given layers, innermost first. Its last layer and no other has a package; a layer
that breaks this goes by its label. -/
def ofLayers (layers : List (String × Layer)) : Except Error Chain :=
  match layers.getLast? with
  | none => .error (.badChain .noLayers)
  | some (label, last) =>
    if reports : last.package?.isSome = true then
      match layers.dropLast.find? (·.2.package?.isSome) with
      | some (label, _) => .error (.badChain (.innerUnit label))
      | none => .ok ⟨layers.dropLast.map (·.2), last, reports⟩
    else
      .error (.badChain (.outermostNotUnit label))

def package (chain : Chain) : String :=
  chain.outermost.package?.get chain.reports

def depth (chain : Chain) : Nat :=
  chain.layers.length

/-- What a simple name means at the position, as far as scopes decide it. -/
def lookup (chain : Chain) (simple : String) : Option String :=
  chain.layers.findSome? (·.lookup simple)

def sees (chain : Chain) (name : TypeName) : Bool :=
  chain.layers.any (·.sees name)

@[simp] theorem layers_push (chain : Chain) (layer : Layer) :
    (chain.push layer).layers = layer :: chain.layers := rfl

@[simp] theorem layers_ofUnit (unit : UnitScope) : (ofUnit unit).layers = [.unit unit] := rfl

theorem lookup_push (chain : Chain) (layer : Layer) (simple : String) :
    (chain.push layer).lookup simple = (layer.lookup simple).or (chain.lookup simple) := by
  simp only [lookup, layers_push, List.findSome?_cons]
  cases layer.lookup simple <;> rfl

theorem sees_push (chain : Chain) (layer : Layer) (name : TypeName) :
    (chain.push layer).sees name = (layer.sees name || chain.sees name) := rfl

end Chain

end ShortNames
