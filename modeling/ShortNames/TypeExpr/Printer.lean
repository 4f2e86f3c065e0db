import ShortNames.TypeExpr.Basic

namespace ShortNames

def Bound.keyword : Bound → String
  | upper => "extends"
  | lower => "super"

namespace TypeExpr

/-- How a reference is written around the texts of its parts. Everything that spells a
reference, in full or shortened, puts it together with these. -/
def writeGeneric (head : String) (args : List String) : String :=
  head ++ "<" ++ ",".intercalate args ++ ">"

def writeInner (outer name : String) : String :=
  outer ++ "." ++ name

def writeArray (element : String) (dims : Nat) : String :=
  element ++ String.join (List.replicate dims "[]")

def writeBounded (bound : Bound) (limit : String) : String :=
  "? " ++ bound.keyword ++ " " ++ limit

mutual
/-- The text of a reference with every name spelled by a given rule. -/
def renderWith (spell : TypeName → String) : TypeExpr → String
  | .named name => spell name
  | .generic head args => writeGeneric (head.renderWith spell) (renderAllWith spell args)
  | .inner outer name => writeInner (outer.renderWith spell) name
  | .array element dims => writeArray (element.renderWith spell) dims
  | .anything => "?"
  | .bounded bound limit => writeBounded bound (limit.renderWith spell)

def renderAllWith (spell : TypeName → String) : List TypeExpr → List String
  | [] => []
  | type :: rest => type.renderWith spell :: renderAllWith spell rest
end

/-- The text of a reference with every name in full. -/
def render (type : TypeExpr) : String :=
  type.renderWith TypeName.qualified

theorem renderAllWith_eq_map (spell : TypeName → String) (args : List TypeExpr) :
    renderAllWith spell args = args.map (renderWith spell) := by
  induction args with
  | nil => rfl
  | cons type rest ih => simp only [renderAllWith, ih, List.map_cons]

end TypeExpr

end ShortNames
