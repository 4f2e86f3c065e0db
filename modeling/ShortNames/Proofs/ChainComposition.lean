import Mathlib.Data.List.Basic
import ShortNames.Scope.Chain

namespace ShortNames

theorem UnitScope.sees_iff (unit : UnitScope) (name : TypeName) :
    unit.sees name = true ↔ name.isDirectlyIn unit.package = true ∨
      ∃ package ∈ unit.openPackages, name.isDirectlyIn package = true := by
  simp only [sees, Bool.or_eq_true, List.any_eq_true]

namespace Layer

/-- Whether a layer is a unit or the body of a type. -/
def isKnown : Layer → Bool
  | .unit _ | .body _ => true
  | .foreign _ => false

def unit? : Layer → Option UnitScope
  | .unit scope => some scope
  | .body _ | .foreign _ => none

/-- The packages that are open to a unit. -/
def openPackages : Layer → List String
  | .unit scope => scope.openPackages
  | .body _ | .foreign _ => []

section Known

variable {layer : Layer} (known : layer.isKnown = true)

include known

theorem package?_eq_map : layer.package? = layer.unit?.map (·.package) := by
  cases layer with
  | unit scope => rfl
  | body scope => rfl
  | foreign scope => cases known

theorem sees_iff_unit (name : TypeName) :
    layer.sees name = true ↔ ∃ unit, layer.unit? = some unit ∧ unit.sees name = true := by
  cases layer with
  | unit scope => simp [sees, unit?]
  | body scope => simp [sees, unit?]
  | foreign scope => cases known

end Known

end Layer

namespace Chain

/-- The ways in which chains come about from units and bodies of types, with the units that were
pushed onto them on the way, the innermost first. -/
inductive Built : List UnitScope → Chain → Prop
  | ofUnit (unit : UnitScope) : Built [] (ofUnit unit)
  | ofLayers {layers : List (String × Layer)} {chain : Chain} : (∀ layer ∈ layers, layer.2.isKnown = true) →
      ofLayers layers = .ok chain → Built [] chain
  | pushBody {units : List UnitScope} {chain : Chain} (scope : BodyScope) :
      Built units chain → Built units (chain.push (.body scope))
  | pushUnit {units : List UnitScope} {chain : Chain} (unit : UnitScope) :
      Built units chain → Built (unit :: units) (chain.push (.unit unit))

/-- The last layer of the chain and no other has a package. So the layers make up the same chain once
more, under any labels, and what is seen is in a package of the last layer. -/
structure WellComposed (chain : Chain) : Prop where
  ends : ∃ inner last, chain.layers = inner ++ [last] ∧ last.package? = some chain.package ∧
    ∀ layer ∈ inner, layer.package? = none
  accepted : ∀ labelled : List (String × Layer), labelled.map (·.2) = chain.layers → ofLayers labelled = .ok chain
  visible : ∀ name : TypeName, chain.sees name = true → name.isDirectlyIn chain.package = true ∨
    ∃ package ∈ chain.outermost.openPackages, name.isDirectlyIn package = true

def innerUnits (chain : Chain) : List UnitScope :=
  chain.inner.filterMap Layer.unit?

/-- Layers that end in one with a package are refused for the innermost other one that has a package. -/
theorem ofLayers_concat (before : List (String × Layer)) (label : String) {last : Layer}
    (reports : last.package?.isSome = true) :
    ofLayers (before ++ [(label, last)]) =
      match before.find? (·.2.package?.isSome) with
      | some (label, _) => .error (.badChain (.innerUnit label))
      | none => .ok ⟨before.map (·.2), last, reports⟩ := by
  cases found : before.find? (·.2.package?.isSome) <;> simp [ofLayers, reports, found]

/-- Where labels are put on the layers of a chain, the last is on its outermost layer. -/
theorem labelled_eq {chain : Chain} {labelled : List (String × Layer)} (same : labelled.map (·.2) = chain.layers) :
    ∃ before label, labelled = before ++ [(label, chain.outermost)] ∧ before.map (·.2) = chain.inner := by
  obtain ⟨before, last, rfl, inner, ended⟩ := List.map_eq_append_iff.mp same
  obtain ⟨⟨label, layer⟩, rfl, rfl⟩ := List.map_eq_singleton_iff.mp ended
  exact ⟨before, label, rfl, inner⟩

/-- A chain that was put together at once has the layers that it was given, and one package. -/
theorem layers_of_ofLayers {layers : List (String × Layer)} {chain : Chain} (made : ofLayers layers = .ok chain) :
    layers.map (·.2) = chain.layers ∧ ∀ layer ∈ chain.inner, layer.package? = none := by
  cases given : layers.getLast? with
  | none =>
    rw [ofLayers, given] at made
    cases made
  | some last =>
    obtain ⟨label, last⟩ := last
    obtain ⟨before, rfl⟩ := List.getLast?_eq_some_iff.mp given
    by_cases reports : last.package?.isSome = true
    · rw [ofLayers_concat before label reports] at made
      split at made
      · cases made
      · rename_i alone
        cases made
        rw [List.find?_eq_none] at alone
        exact ⟨by simp [Chain.layers], List.forall_mem_map.mpr fun layer member => by simpa using alone layer member⟩
    · simp [ofLayers, reports] at made

section Known

variable {chain : Chain} (known : ∀ layer ∈ chain.layers, layer.isKnown = true)

include known

theorem exists_unit : ∃ unit, chain.outermost = .unit unit := by
  have last := known chain.outermost (by simp [layers])
  have reports := chain.reports
  cases outermost : chain.outermost with
  | unit unit => exact ⟨unit, rfl⟩
  | body scope =>
    rw [outermost] at reports
    cases reports
  | foreign scope =>
    rw [outermost] at last
    cases last

theorem innerUnits_eq_nil_iff : chain.innerUnits = [] ↔ ∀ layer ∈ chain.inner, layer.package? = none := by
  rw [innerUnits, List.filterMap_eq_nil_iff]
  refine forall₂_congr fun layer member => ?_
  rw [Layer.package?_eq_map (known layer (List.mem_append_left _ member)), Option.map_eq_none_iff]

theorem filterMap_package?_inner : chain.inner.filterMap Layer.package? = chain.innerUnits.map (·.package) := by
  rw [innerUnits, List.map_filterMap]
  exact List.filterMap_congr fun layer member => Layer.package?_eq_map (known layer (List.mem_append_left _ member))

/-- What is seen is what some unit sees. -/
theorem sees_iff {unit : UnitScope} (last : chain.outermost = .unit unit) (name : TypeName) :
    chain.sees name = true ↔ ∃ seeing ∈ unit :: chain.innerUnits, seeing.sees name = true := by
  have units : chain.layers.filterMap Layer.unit? = chain.innerUnits ++ [unit] := by
    rw [layers, List.filterMap_append, last]
    rfl
  have isUnit (seeing : UnitScope) :
      seeing ∈ unit :: chain.innerUnits ↔ ∃ layer ∈ chain.layers, layer.unit? = some seeing := by
    rw [← List.mem_filterMap, units, List.mem_append, List.mem_singleton, List.mem_cons, or_comm]
  simp only [sees, List.any_eq_true, isUnit]
  constructor
  · rintro ⟨layer, member, seen⟩
    obtain ⟨seeing, found, seen⟩ := (Layer.sees_iff_unit (known layer member) name).mp seen
    exact ⟨seeing, ⟨layer, member, found⟩, seen⟩
  · rintro ⟨seeing, ⟨layer, member, found⟩, seen⟩
    exact ⟨layer, member, (Layer.sees_iff_unit (known layer member) name).mpr ⟨seeing, found, seen⟩⟩

theorem ofLayers_of_no_innerUnits (alone : chain.innerUnits = []) {labelled : List (String × Layer)}
    (same : labelled.map (·.2) = chain.layers) : ofLayers labelled = .ok chain := by
  obtain ⟨before, label, rfl, inner⟩ := labelled_eq same
  rw [innerUnits_eq_nil_iff known, ← inner, List.forall_mem_map] at alone
  have none : before.find? (·.2.package?.isSome) = none := by simpa using alone
  rw [ofLayers_concat before label chain.reports, none]
  simp only [inner]

/-- A chain with a unit inside is refused, and that unit named. -/
theorem ofLayers_of_innerUnits (several : chain.innerUnits ≠ []) {labelled : List (String × Layer)}
    (same : labelled.map (·.2) = chain.layers) :
    ∃ label unit, (label, Layer.unit unit) ∈ labelled.dropLast ∧ unit ∈ chain.innerUnits ∧
      ofLayers labelled = .error (.badChain (.innerUnit label)) := by
  obtain ⟨before, label, rfl, inner⟩ := labelled_eq same
  rw [ofLayers_concat before label chain.reports, List.dropLast_concat]
  cases found : before.find? (·.2.package?.isSome) with
  | none =>
    have alone : chain.innerUnits = [] := by
      rw [innerUnits_eq_nil_iff known, ← inner, List.forall_mem_map]
      simpa using found
    exact absurd alone several
  | some layer =>
    obtain ⟨label, layer⟩ := layer
    have member := List.mem_of_find?_eq_some found
    have hasPackage := List.find?_some found
    have inside : layer ∈ chain.inner := inner ▸ List.mem_map_of_mem (f := (·.2)) member
    have isKnown := known layer (List.mem_append_left _ inside)
    cases layer with
    | unit unit => exact ⟨label, unit, member, List.mem_filterMap.mpr ⟨_, inside, rfl⟩, rfl⟩
    | body scope => cases hasPackage
    | foreign scope => cases isKnown

theorem wellComposed_iff : chain.WellComposed ↔ chain.innerUnits = [] := by
  constructor
  · rintro ⟨⟨inner, last, same, -, alone⟩, -, -⟩
    rw [innerUnits_eq_nil_iff known, (List.append_inj' same rfl).1]
    exact alone
  · intro alone
    refine ⟨⟨chain.inner, chain.outermost, rfl, (Option.some_get _).symm, (innerUnits_eq_nil_iff known).mp alone⟩,
      fun labelled same => ofLayers_of_no_innerUnits known alone same, fun name seen => ?_⟩
    obtain ⟨unit, last⟩ := exists_unit known
    rw [sees_iff known last, alone] at seen
    obtain ⟨_, _ | ⟨_, ⟨⟩⟩, seen⟩ := seen
    simp only [package, last]
    exact (unit.sees_iff name).mp seen

end Known

theorem Built.known {units : List UnitScope} {chain : Chain} (built : Built units chain) :
    ∀ layer ∈ chain.layers, layer.isKnown = true := by
  induction built with
  | ofUnit unit => simp [Layer.isKnown]
  | ofLayers known made =>
    rw [← (layers_of_ofLayers made).1, List.forall_mem_map]
    exact known
  | pushBody scope _ ih => simpa [Layer.isKnown] using ih
  | pushUnit unit _ ih => simpa [Layer.isKnown] using ih

/-- Only what was pushed as a unit is a unit inside. -/
theorem Built.innerUnits_eq {units : List UnitScope} {chain : Chain} (built : Built units chain) :
    chain.innerUnits = units := by
  induction built with
  | ofUnit unit => rfl
  | ofLayers known made =>
    have alone := layers_of_ofLayers made
    rw [innerUnits_eq_nil_iff (Built.ofLayers known made).known]
    exact alone.2
  | pushBody scope _ ih => exact ih
  | pushUnit unit _ ih => exact congrArg (unit :: ·) ih

/-- A chain is well composed if and only if no unit was pushed onto it. Whatever was pushed, its
last layer is a unit, whose package is that of the chain; the packages of the other layers are
those of the pushed units, in order; with a pushed unit the layers are refused, under the label of
such a unit; and what is seen is what the last layer or a pushed unit sees. -/
theorem Built.composition {units : List UnitScope} {chain : Chain} (built : Built units chain) :
    ∃ last : UnitScope, chain.layers.getLast? = some (.unit last) ∧ last.package = chain.package ∧
    (chain.WellComposed ↔ units = []) ∧
    chain.layers.dropLast.filterMap Layer.package? = units.map (·.package) ∧
    (units ≠ [] → ∀ labelled : List (String × Layer), labelled.map (·.2) = chain.layers →
      ∃ label unit, (label, Layer.unit unit) ∈ labelled.dropLast ∧ unit ∈ units ∧
        Chain.ofLayers labelled = .error (.badChain (.innerUnit label))) ∧
    ∀ name : TypeName, chain.sees name = true ↔ ∃ unit ∈ last :: units,
      name.isDirectlyIn unit.package = true ∨
        ∃ package ∈ unit.openPackages, name.isDirectlyIn package = true := by
  have known := built.known
  obtain ⟨last, outermost⟩ := exists_unit known
  obtain rfl := built.innerUnits_eq
  refine ⟨last, by simp [layers, outermost], by simp [package, outermost, Layer.package?], wellComposed_iff known, ?_,
    fun several labelled same => ofLayers_of_innerUnits known several same, fun name => ?_⟩
  · rw [layers, List.dropLast_concat]
    exact filterMap_package?_inner known
  · simp only [sees_iff known outermost, UnitScope.sees_iff]

/-- The body of a type in a unit makes a well composed chain, and one unit more inside it does not. -/
theorem Built.composition_bodies :
    let body : Layer := .body ⟨.ofPath [("app", .dot)] "Outer", ∅, ∅⟩
    let outer := (Chain.ofUnit (.ofPackage "app")).push body
    let chain := (outer.push (.unit (.ofPackage "lib"))).push body
    Built [] outer ∧ outer.WellComposed ∧ Built [.ofPackage "lib"] chain ∧ ¬ chain.WellComposed ∧
      chain.layers.dropLast.filterMap Layer.package? = ["lib"] ∧
      chain.sees (.ofPath [("lib", .dot)] "Foo") = true := by
  intro body outer chain
  have builtOuter : Built [] outer := .pushBody _ (.ofUnit _)
  have built : Built [.ofPackage "lib"] chain := .pushBody _ (.pushUnit _ builtOuter)
  obtain ⟨_, -, -, composedOuter, -⟩ := builtOuter.composition
  obtain ⟨last, -, -, composed, packages, -, seen⟩ := built.composition
  refine ⟨builtOuter, composedOuter.mpr rfl, built, fun isComposed => ?_, packages, ?_⟩
  · cases composed.mp isComposed
  · exact (seen _).mpr ⟨.ofPackage "lib", by simp, .inl (by decide)⟩

/-- A pushed unit reports a package of its own inside the chain, so that the layers of the chain are
refused when they are put together at once, and types of its package are seen although they are in
no package of the last layer. -/
theorem push_unit_not_wellComposed :
    let app := UnitScope.ofPackage "app"
    let lib := UnitScope.ofPackage "lib"
    let chain := (ofUnit app).push (.unit lib)
    let name : TypeName := .ofPath [("lib", .dot)] "Foo"
    Built [lib] chain ∧ ¬ chain.WellComposed ∧ chain.layers.map Layer.package? = [some "lib", some chain.package] ∧
      ofLayers [("inside", .unit lib), ("outside", .unit app)] = .error (.badChain (.innerUnit "inside")) ∧
      chain.sees name = true ∧ name.isDirectlyIn chain.package = false ∧
      ∀ package ∈ chain.outermost.openPackages, name.isDirectlyIn package = false := by
  intro app lib chain name
  have built : Built [lib] chain := .pushUnit lib (.ofUnit app)
  refine ⟨built, fun composed => ?_, rfl, rfl, by decide, by decide, by decide⟩
  have alone := (wellComposed_iff built.known).mp composed
  rw [built.innerUnits_eq] at alone
  cases alone

end Chain

end ShortNames
