import ShortNames.ImportTable.Basic
import ShortNames.Scope.Chain
import ShortNames.TypeExpr.Printer
import ShortNames.TypeExpr.Reader

namespace ShortNames.Chain

/-- A name is spelled as wanted if it has got its simple name, and in full if another type has it. -/
def spellingAfter (wanted : Spelling) : ImportTable.Outcome → Spelling
  | .added | .present => wanted
  | .taken _ => .inFull

/-- Decides how a name is spelled. What is in scope comes before the table; a simple name that
neither knows is bound, by an import unless the package makes it known anyway. -/
def chooseSpelling (chain : Chain) (table : ImportTable) (name : TypeName) : Recorded Spelling :=
  if name.primitive then
    table.unchanged .primitive
  else if !name.isQualified then
    table.unchanged .unqualified
  else
    match chain.lookup name.simple, table.lookup name.simple with
    | some found, _ => table.unchanged (if found = name.qualified then .inScope else .inFull)
    | none, some found =>
      table.unchanged (if found = name.qualified then .alreadyBound else .inFull)
    | none, none =>
      if chain.sees name then (table.bind name .implicit).map (spellingAfter .implicit)
      else (table.bind name .imported).map (spellingAfter .freshImport)

/-- Decides how a name is spelled, and tells. -/
def shortenName (chain : Chain) (table : ImportTable) (name : TypeName) : Recorded Spelling :=
  let chosen := chain.chooseSpelling table name
  { chosen with events := chosen.events ++ [.nameSpelled name.qualified chosen.result] }

mutual
/-- The text of a reference with its names as short as they can be. Names are decided in the
order in which they are written, so an earlier one may take a simple name from a later one. -/
def shortenType (chain : Chain) (table : ImportTable) : TypeExpr → Recorded String
  | .named name => (chain.shortenName table name).map (·.text name)
  | .generic head args =>
    let first := chain.shortenType table head
    let rest := chain.shortenAll first.table args
    { result := TypeExpr.writeGeneric first.result rest.result
      table := rest.table
      events := first.events ++ rest.events }
  | .inner outer name => (chain.shortenType table outer).map (TypeExpr.writeInner · name)
  | .array element dims => (chain.shortenType table element).map (TypeExpr.writeArray · dims)
  | .anything => table.unchanged "?"
  | .bounded bound limit => (chain.shortenType table limit).map (TypeExpr.writeBounded bound)

def shortenAll (chain : Chain) (table : ImportTable) : List TypeExpr → Recorded (List String)
  | [] => table.unchanged []
  | type :: others =>
    let first := chain.shortenType table type
    let rest := chain.shortenAll first.table others
    { result := first.result :: rest.result
      table := rest.table
      events := first.events ++ rest.events }
end

/-- Reads a reference and writes it as short as it can be. -/
def shorten (chain : Chain) (table : ImportTable) (text : String) :
    Recorded (Except (Failure Error) String) :=
  match TypeExpr.parse text with
  | .error failure => table.unchanged (.error failure)
  | .ok type =>
    let short := chain.shortenType table type
    { result := .ok short.result
      table := short.table
      events := short.events ++ [.referenceSpelled text short.result] }

end ShortNames.Chain
