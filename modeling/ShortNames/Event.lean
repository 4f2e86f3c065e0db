import ShortNames.Declaration
import ShortNames.Entry
import ShortNames.Spelling

namespace ShortNames

namespace Event

inductive Level
  | trace
  | debug
  | warn
deriving DecidableEq, Repr

def Level.label : Level → String
  | trace => "TRACE"
  | debug => "DEBUG"
  | warn => "WARN"

end Event

/-- Something that happened to the names of a unit and is worth telling. -/
inductive Event
  | bound (entry : Entry)
  | staticAdded (name : String)
  | onDemandSkipped (declaration : Declaration)
  | takenSkipped (declaration : Declaration) (existing : String)
  | nameSpelled (qualified : String) (spelling : Spelling)
  | referenceSpelled (reference text : String)
  | listingMade (statics groups : Nat)
deriving DecidableEq, Repr

namespace Event

def level : Event → Level
  | bound .. | staticAdded .. | listingMade .. => .debug
  | onDemandSkipped .. | takenSkipped .. => .warn
  | nameSpelled .. | referenceSpelled .. => .trace

def message : Event → String
  | bound entry =>
    "[REGISTRY] bind " ++ entry.simple ++ " -> " ++ entry.qualified ++
      " (" ++ entry.standing.label ++ ")"
  | staticAdded name => "[REGISTRY] static import " ++ name
  | onDemandSkipped declaration =>
    "[REGISTRY] skipping on-demand import '" ++ declaration.render ++ "'"
  | takenSkipped declaration existing =>
    "[REGISTRY] skipping '" ++ declaration.render ++ "': simple name already bound to " ++ existing
  | nameSpelled qualified spelling => "[RESOLVE] leaf " ++ qualified ++ " -> " ++ spelling.label
  | referenceSpelled reference text => "[RESOLVE] '" ++ reference ++ "' -> '" ++ text ++ "'"
  | listingMade statics groups =>
    "[EMIT] " ++ toString statics ++ " static imports, " ++ toString groups ++ " groups"

end Event

end ShortNames
