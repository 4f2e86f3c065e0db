import ShortNames.TypeName.Basic

namespace ShortNames

/-- On which side a wildcard is bounded: by what it extends, or by what extends it. -/
inductive Bound
  | upper
  | lower
deriving DecidableEq, Repr

/-- A reference to a type. Inner types are those named after type arguments, since before them
the pieces of a name are not told apart. -/
inductive TypeExpr
  | named (name : TypeName)
  | generic (head : TypeExpr) (args : List TypeExpr)
  | inner (outer : TypeExpr) (name : String)
  | array (element : TypeExpr) (dims : Nat)
  | anything
  | bounded (bound : Bound) (limit : TypeExpr)

namespace TypeExpr

mutual
def decEq : (first second : TypeExpr) → Decidable (first = second)
  | .named name, second => match second with
    | .named other => decidable_of_iff (name = other) (by simp)
    | .generic .. | .inner .. | .array .. | .anything | .bounded .. => isFalse nofun
  | .generic head args, second => match second with
    | .generic otherHead otherArgs =>
      have := decEq head otherHead
      have := decEqAll args otherArgs
      decidable_of_iff (head = otherHead ∧ args = otherArgs) (by simp)
    | .named .. | .inner .. | .array .. | .anything | .bounded .. => isFalse nofun
  | .inner outer name, second => match second with
    | .inner otherOuter other =>
      have := decEq outer otherOuter
      decidable_of_iff (outer = otherOuter ∧ name = other) (by simp)
    | .named .. | .generic .. | .array .. | .anything | .bounded .. => isFalse nofun
  | .array element dims, second => match second with
    | .array otherElement other =>
      have := decEq element otherElement
      decidable_of_iff (element = otherElement ∧ dims = other) (by simp)
    | .named .. | .generic .. | .inner .. | .anything | .bounded .. => isFalse nofun
  | .anything, second => match second with
    | .anything => isTrue rfl
    | .named .. | .generic .. | .inner .. | .array .. | .bounded .. => isFalse nofun
  | .bounded bound limit, second => match second with
    | .bounded other otherLimit =>
      have := decEq limit otherLimit
      decidable_of_iff (bound = other ∧ limit = otherLimit) (by simp)
    | .named .. | .generic .. | .inner .. | .array .. | .anything => isFalse nofun

def decEqAll : (first second : List TypeExpr) → Decidable (first = second)
  | [], [] => isTrue rfl
  | [], _ :: _ => isFalse nofun
  | _ :: _, [] => isFalse nofun
  | first :: firsts, second :: seconds =>
    have := decEq first second
    have := decEqAll firsts seconds
    decidable_of_iff (first = second ∧ firsts = seconds) (by simp)
end

instance : DecidableEq TypeExpr := decEq

/-- The name that a reference is about, which only a wildcard without bound does not have. -/
def headName? : TypeExpr → Option TypeName
  | .named name => some name
  | .generic head _ => head.headName?
  | .inner outer _ => outer.headName?
  | .array element _ => element.headName?
  | .anything => none
  | .bounded _ limit => limit.headName?

mutual
/-- All names in a reference, in the order in which they are written. -/
def names : TypeExpr → List TypeName
  | .named name => [name]
  | .generic head args => head.names ++ namesAll args
  | .inner outer _ => outer.names
  | .array element _ => element.names
  | .anything => []
  | .bounded _ limit => limit.names

def namesAll : List TypeExpr → List TypeName
  | [] => []
  | type :: rest => type.names ++ namesAll rest
end

theorem namesAll_eq_flatMap (args : List TypeExpr) : namesAll args = args.flatMap names := by
  induction args with
  | nil => rfl
  | cons type rest ih => simp only [namesAll, ih, List.flatMap_cons]

end TypeExpr

end ShortNames
