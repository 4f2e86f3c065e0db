import ShortNames.Identifier

namespace ShortNames

/-- What may stand between two pieces of a name. A dollar marks a nested type. -/
inductive Separator
  | dot
  | dollar
deriving DecidableEq, Repr

def Separator.ofChar? : Char → Option Separator
  | '.' => some .dot
  | '$' => some .dollar
  | _ => none

/-- The name of a type: the pieces of its package, the types around it from the outside in, and
its simple name. Whether the name was written with dots or dollars shows only in where the
package ends. -/
structure TypeName where
  package : List String
  outers : List String
  simple : String
  primitive : Bool
deriving DecidableEq, Repr

def dotted (pieces : List String) : String :=
  ".".intercalate pieces

theorem dotted_append {front back : List String} (nonempty : front ≠ []) (more : back ≠ []) :
    dotted (front ++ back) = dotted front ++ "." ++ dotted back :=
  String.intercalate_append_of_ne_nil nonempty more

def dotted? (pieces : List String) : Option String :=
  if pieces.isEmpty then none else some (dotted pieces)

namespace TypeName

/-- Reads a path, given as the pieces before the simple name with the separator after each.
Without a dollar all of them are the package. Otherwise the piece that ends at the first
dollar is a type, and so are all pieces after it. -/
def ofPath (enclosing : List (String × Separator)) (simple : String) : TypeName where
  package := (enclosing.takeWhile (·.2 == .dot)).map (·.1)
  outers := (enclosing.dropWhile (·.2 == .dot)).map (·.1)
  simple := simple
  primitive := enclosing.isEmpty && isPrimitiveKeyword simple

/-- The primitive type with a given keyword, which is not examined. -/
def ofKeyword (keyword : String) : TypeName where
  package := []
  outers := []
  simple := keyword
  primitive := true

def enclosing (name : TypeName) : List String :=
  name.package ++ name.outers

def qualified (name : TypeName) : String :=
  dotted (name.enclosing ++ [name.simple])

def qualifier? (name : TypeName) : Option String :=
  dotted? name.enclosing

def package? (name : TypeName) : Option String :=
  dotted? name.package

def isQualified (name : TypeName) : Bool :=
  !name.enclosing.isEmpty

/-- Whether the simple name stands directly in a package, or in a type spelled like one. -/
def isDirectlyIn (name : TypeName) (package : String) : Bool :=
  name.qualifier? == some package

@[simp] theorem enclosing_ofPath (path : List (String × Separator)) (simple : String) :
    (ofPath path simple).enclosing = path.map (·.1) := by
  simp only [enclosing, ofPath, ← List.map_append, List.takeWhile_append_dropWhile]

theorem qualified_of_not_isQualified {name : TypeName} (bare : name.isQualified = false) :
    name.qualified = name.simple := by
  simp only [isQualified, Bool.not_eq_false', List.isEmpty_iff] at bare
  simp only [qualified, bare, dotted, List.nil_append, String.intercalate_singleton]

end TypeName

end ShortNames
