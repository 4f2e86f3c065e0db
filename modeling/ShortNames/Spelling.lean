import ShortNames.TypeName.Basic

namespace ShortNames

/-- How a name is spelled, and for what reason. -/
inductive Spelling
  | primitive
  | unqualified
  | inScope
  | alreadyBound
  | implicit
  | freshImport
  | inFull
deriving DecidableEq, Repr

namespace Spelling

def label : Spelling → String
  | primitive => "BaseType"
  | unqualified => "Unqualified"
  | inScope => "VisibleInScope"
  | alreadyBound => "AlreadyImported"
  | implicit => "Implicit"
  | freshImport => "NewImport"
  | inFull => "FullyQualified"

def isShort (spelling : Spelling) : Bool :=
  spelling != .inFull

def text (spelling : Spelling) (name : TypeName) : String :=
  if spelling.isShort then name.simple else name.qualified

end Spelling

end ShortNames
