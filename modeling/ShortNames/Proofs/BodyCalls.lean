import ShortNames.Proofs.GrammarReading
import ShortNames.Scope.Body

namespace ShortNames.BodyScope

/-- The ways in which the scope of a body gets to know a name. -/
inductive Call
  | member (simple : String)
  | parameter (name : String)
  | inherited (text : String)
deriving DecidableEq, Repr

namespace Call

def run (scope : BodyScope) : Call → Except Error BodyScope
  | member simple => scope.declareMember simple
  | parameter name => scope.declareParameter name
  | inherited text => scope.inheritMember text

def isDeclaring : Call → Bool
  | member _ | parameter _ => true
  | inherited _ => false

/-- Whether a call gives a name of the right form: an identifier where something is declared, and
a name inside another one where something is inherited. -/
def isWellFormed : Call → Bool
  | member simple => isIdentifier simple
  | parameter name => isIdentifier name
  | inherited text =>
    match TypeName.parse text with
    | .ok name => name.isQualified
    | .error _ => false

/-- What a declaration in the body of a given type makes of a simple name. -/
def declares? (own : TypeName) (simple : String) : Call → Option String
  | member declared => if declared = simple then some (own.qualified ++ "." ++ simple) else none
  | parameter declared => if declared = simple then some simple else none
  | inherited _ => none

def inherits? (simple : String) : Call → Option String
  | member _ | parameter _ => none
  | inherited text =>
    match TypeName.parse text with
    | .ok name => if name.simple = simple then some name.qualified else none
    | .error _ => none

theorem declares?_eq_none (own : TypeName) (simple : String) (call : Call) (inheriting : call.isDeclaring = false) :
    call.declares? own simple = none := by
  cases call with
  | member _ | parameter _ => cases inheriting
  | inherited _ => rfl

theorem inherits?_eq_none (simple : String) (call : Call) (declaring : (!call.isDeclaring) = false) :
    call.inherits? simple = none := by
  cases call with
  | member _ | parameter _ => rfl
  | inherited _ => cases declaring

/-- Whether a call succeeds does not depend on what the scope knows already. -/
theorem isWellFormed_iff (scope : BodyScope) (call : Call) :
    call.isWellFormed = true ↔ ∃ later, call.run scope = .ok later := by
  cases call with
  | member simple => simp [isWellFormed, run, declareMember_eq_ok_iff]
  | parameter name => simp [isWellFormed, run, declareParameter_eq_ok_iff]
  | inherited text =>
    simp only [isWellFormed, run, inheritMember_eq_ok_iff]
    cases TypeName.parse text <;> simp

theorem typeName_run {scope later : BodyScope} {call : Call} (done : call.run scope = .ok later) :
    later.typeName = scope.typeName := by
  cases call with
  | member simple =>
    obtain ⟨-, rfl⟩ := declareMember_eq_ok_iff.mp done
    rfl
  | parameter name =>
    obtain ⟨-, rfl⟩ := declareParameter_eq_ok_iff.mp done
    rfl
  | inherited text =>
    obtain ⟨name, -, -, rfl⟩ := inheritMember_eq_ok_iff.mp done
    rfl

/-- What a call declares goes before all that was known, and what it inherits goes behind that. -/
theorem lookup_run {scope later : BodyScope} {call : Call} (done : call.run scope = .ok later) (simple : String) :
    later.lookup simple =
      (call.declares? scope.typeName simple).or ((scope.lookup simple).or (call.inherits? simple)) := by
  cases call with
  | member declared =>
    rw [lookup_declareMember done, declares?, inherits?, Option.or_none]
    by_cases same : declared = simple <;> simp [same]
  | parameter declared =>
    rw [lookup_declareParameter done, declares?, inherits?, Option.or_none]
    by_cases same : declared = simple <;> simp [same]
  | inherited text =>
    obtain ⟨name, parsed, found⟩ := lookup_inheritMember done
    rw [found, declares?, inherits?, parsed, Option.none_or]

end Call

/-- The scope after some calls. A call that fails leaves it as it was. -/
def after (scope : BodyScope) : List Call → BodyScope
  | [] => scope
  | call :: rest =>
    match call.run scope with
    | .ok later => later.after rest
    | .error _ => scope.after rest

/-- The calls that succeed, each on the scope that the calls before it have left. -/
def succeeding (scope : BodyScope) : List Call → List Call
  | [] => []
  | call :: rest =>
    match call.run scope with
    | .ok later => call :: later.succeeding rest
    | .error _ => scope.succeeding rest

theorem succeeding_eq_filter (scope : BodyScope) (calls : List Call) :
    scope.succeeding calls = calls.filter (·.isWellFormed) := by
  induction calls generalizing scope with
  | nil => rfl
  | cons call rest ih =>
    have succeeds := call.isWellFormed_iff scope
    rw [succeeding]
    cases done : call.run scope with
    | ok later =>
      have wellFormed := succeeds.mpr ⟨later, done⟩
      rw [List.filter_cons_of_pos wellFormed, ← ih later]
    | error error =>
      have malformed : ¬ call.isWellFormed = true := by simp [succeeds, done]
      rw [List.filter_cons_of_neg malformed, ← ih scope]

section Fold

variable {α β : Type} (f : α → Option β) (first : α) (rest : List α)

theorem head?_filterMap_cons :
    ((first :: rest).filterMap f).head? = (f first).or (rest.filterMap f).head? := by
  rw [List.filterMap_cons]
  cases f first <;> rfl

theorem getLast?_filterMap_cons :
    ((first :: rest).filterMap f).getLast? = (rest.filterMap f).getLast?.or (f first) := by
  rw [List.filterMap_cons]
  cases f first with
  | none => exact Option.or_none.symm
  | some value =>
    rw [List.getLast?_cons]
    cases (rest.filterMap f).getLast? <;> rfl

end Fold

/-- Calls put their last declaration of a simple name before what was known of it, and the first
type of that name that they inherit behind. -/
theorem lookup_after (scope : BodyScope) (calls : List Call) (simple : String) :
    (scope.after calls).lookup simple =
      ((scope.succeeding calls).filterMap (·.declares? scope.typeName simple)).getLast?.or
        ((scope.lookup simple).or ((scope.succeeding calls).filterMap (·.inherits? simple)).head?) := by
  induction calls generalizing scope with
  | nil => simp [after, succeeding]
  | cons call rest ih =>
    rw [after, succeeding]
    cases done : call.run scope with
    | error error => exact ih scope
    | ok later =>
      -- What the rest finds known is what this call has left, with its declaration in front and its
      -- inherited type behind. That is where they stand among the calls, too.
      dsimp only
      rw [ih, Call.lookup_run done, Call.typeName_run done, getLast?_filterMap_cons, head?_filterMap_cons]
      simp only [Option.or_assoc]

/-- A rule that says nothing about one kind of calls can be applied to those of the other kind alone. -/
theorem filterMap_succeeding (scope : BodyScope) {kind : Call → Bool} {rule : Call → Option String}
    (silent : ∀ call, kind call = false → rule call = none) (calls : List Call) :
    (scope.succeeding calls).filterMap rule = ((calls.filter kind).filter (·.isWellFormed)).filterMap rule := by
  rw [succeeding_eq_filter]
  simp only [List.filterMap_filter]
  refine congrArg (List.filterMap · calls) (funext fun call => ?_)
  cases ofKind : kind call with
  | true => rfl
  | false => simp [silent call ofKind]

/-- How declarations and inherited types are mixed does not show in what the names stand for. -/
theorem lookup_after_congr (scope : BodyScope) {calls others : List Call}
    (declaring : others.filter (·.isDeclaring) = calls.filter (·.isDeclaring))
    (inheriting : others.filter (!·.isDeclaring) = calls.filter (!·.isDeclaring)) (simple : String) :
    (scope.after others).lookup simple = (scope.after calls).lookup simple := by
  have declared := scope.filterMap_succeeding (Call.declares?_eq_none scope.typeName simple)
  have inherited := scope.filterMap_succeeding (Call.inherits?_eq_none simple)
  rw [lookup_after, lookup_after, declared calls, declared others, inherited calls, inherited others, declaring,
    inheriting]

/-- What a name stands for in the body of a type is told by the calls that were made, whatever their
order. The last declaration decides, without one the type itself if the name is its own, and only
then the first type that was inherited. The calls that count are those with a name of the right form.
So declarations may be mixed with inherited types in any way. -/
theorem lookup_after_calls {text : String} {scope : BodyScope} (built : ofName text = .ok scope)
    (calls : List Call) :
    (∃ own, TypeName.parse text = .ok own ∧ ∀ simple, (scope.after calls).lookup simple =
      ((scope.succeeding calls).filterMap (·.declares? own simple)).getLast?.or
        ((if own.simple = simple then some own.qualified else none).or
          ((scope.succeeding calls).filterMap (·.inherits? simple)).head?)) ∧
    scope.succeeding calls = calls.filter (·.isWellFormed) ∧
    ∀ others : List Call, others.filter (·.isDeclaring) = calls.filter (·.isDeclaring) →
      others.filter (!·.isDeclaring) = calls.filter (!·.isDeclaring) →
        ∀ simple, (scope.after others).lookup simple = (scope.after calls).lookup simple := by
  refine ⟨⟨scope.typeName, ?_, fun simple => ?_⟩, scope.succeeding_eq_filter calls,
    fun others declaring inheriting => scope.lookup_after_congr declaring inheriting⟩
  · obtain ⟨name, parsed, -, rfl⟩ := ofName_eq_ok_iff.mp built
    exact parsed
  · rw [lookup_after, lookup_ofName built]

/-- `Item` is inherited before it is declared, `T` is declared twice, `Node` is inherited twice, and
two calls fail. With the inherited types at the end all names stand for the same. -/
theorem lookup_after_calls_item :
    let calls : List Call := [.inherited "x.Base$Item", .member "Item", .parameter "T", .inherited "y.Other$Node",
      .member "1st", .member "T", .inherited "z.Third$Node", .inherited "Map"]
    let others : List Call := [.member "Item", .parameter "T", .member "1st", .member "T", .inherited "x.Base$Item",
      .inherited "y.Other$Node", .inherited "z.Third$Node", .inherited "Map"]
    let names := ["Item", "T", "Node", "Outer", "1st", "Map"]
    let meanings := [some "a.b.Outer.Item", some "a.b.Outer.T", some "y.Other.Node", some "a.b.Outer", none, none]
    ∃ scope, ofName "a.b.Outer" = .ok scope ∧ (scope.succeeding calls).length = 6 ∧
      names.map (scope.after calls).lookup = meanings ∧ names.map (scope.after others).lookup = meanings := by
  intro calls others names meanings
  have parsed : TypeName.parse "a.b.Outer" = .ok (.ofPath [("a", .dot), ("b", .dot)] "Outer") :=
    eq_ok_of_toOption (by decide +kernel)
  obtain ⟨scope, built⟩ : ∃ scope, ofName "a.b.Outer" = .ok scope :=
    ⟨_, ofName_eq_ok_iff.mpr ⟨_, parsed, rfl, rfl⟩⟩
  obtain ⟨⟨own, read, found⟩, succeed, mixed⟩ := lookup_after_calls built calls
  rw [parsed] at read
  cases read
  rw [succeed] at found
  have meant : names.map (scope.after calls).lookup = meanings := by
    rw [funext found]
    decide +kernel
  refine ⟨scope, built, by rw [succeed]; decide +kernel, meant, ?_⟩
  rw [funext (mixed others (by decide) (by decide))]
  exact meant

end ShortNames.BodyScope
