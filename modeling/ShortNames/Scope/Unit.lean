import Std.Data.TreeMap
import ShortNames.TypeName.Reader

namespace ShortNames

/-- The package whose types need no import in any unit. -/
def languagePackage : String := "java.lang"

/-- What a compilation unit puts in scope: the types that it declares by their simple names, and
without a declaration the types of its own package and of the packages open to it. -/
structure UnitScope where
  package : String
  openPackages : List String
  declared : Std.TreeMap String String

namespace UnitScope

def ofPackage (package : String) : UnitScope where
  package := package
  openPackages := [languagePackage]
  declared := ∅

/-- The full name of a type that the unit declares. Without a package it is the simple name. -/
def nameOf (unit : UnitScope) (simple : String) : String :=
  if unit.package.isEmpty then simple else unit.package ++ "." ++ simple

def declare (unit : UnitScope) (simple : String) : Except Error UnitScope :=
  if isIdentifier simple then
    .ok { unit with declared := unit.declared.insert simple (unit.nameOf simple) }
  else
    .error (.badImport simple .declaredNotIdentifier)

/-- Opens a package to the unit. The order of opening is kept, and a second opening has no effect. -/
def openPackage (unit : UnitScope) (package : String) : UnitScope :=
  if package ∈ unit.openPackages then unit
  else { unit with openPackages := unit.openPackages ++ [package] }

def lookup (unit : UnitScope) (simple : String) : Option String :=
  unit.declared[simple]?

def sees (unit : UnitScope) (name : TypeName) : Bool :=
  name.isDirectlyIn unit.package || unit.openPackages.any (name.isDirectlyIn ·)

end UnitScope

end ShortNames
