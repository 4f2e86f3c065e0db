import ShortNames.Text

namespace ShortNames

/-- In which order the groups of an import section follow each other. -/
inductive Arrangement
  | alphabetical
  | firstUse
  | pinned (packages : List String)
deriving DecidableEq, Repr

/-- Whether a group belongs to a pinned package: it is that package or lies below it. -/
def covers (package key : String) : Bool :=
  match package.toList.isPrefixOf? key.toList with
  | none => false
  | some [] => true
  | some (c :: _) => c == '.'

namespace Arrangement

/-- The place of the first pinned package that a group belongs to. Groups that belong to none
come after all others. -/
def rank (packages : List String) (key : String) : Nat :=
  packages.findIdx (covers · key)

/-- Whether a group may stand before another one. -/
def before (packages : List String) (first second : String) : Bool :=
  let firstRank := rank packages first
  let secondRank := rank packages second
  decide (firstRank < secondRank) || (firstRank == secondRank && decide (first ≤ second))

/-- Puts group keys, given in the order in which they were first seen, into their final order. -/
def arrange (order : Arrangement) (keys : List String) : List String :=
  match order with
  | alphabetical => keys.mergeSort (fun first second => decide (first ≤ second))
  | firstUse => keys
  | pinned packages => keys.mergeSort (before packages)

end Arrangement

/-- How an import section is laid out. -/
structure Layout where
  depth : Nat := 1
  arrangement : Arrangement := .pinned ["java", "javax"]
  sortStatics : Bool := true
deriving DecidableEq, Repr

namespace Layout

/-- A group has at least one piece in its key. -/
def withDepth (layout : Layout) (depth : Nat) : Layout :=
  { layout with depth := max depth 1 }

/-- The leading pieces of the package of a name. The package ends at the last dot, the key at the dot
that the depth asks for, if the package has so many. -/
def keyOf (layout : Layout) (name : String) : String :=
  String.ofList (Text.beforeNth '.' (max layout.depth 1 - 1) (Text.beforeLast '.' name.toList))

end Layout

end ShortNames
