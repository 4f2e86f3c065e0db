import ShortNames.ImportTable.Basic

namespace ShortNames.ImportTable

/-- Reads the declarations on lines that are not blank. The first bad line decides. -/
def readLines (lines : List String) : Except Error (List Declaration) :=
  (lines.filter fun line => !line.toList.all isBlank).mapM Declaration.parse

/-- Takes over one declaration. Answers whether it brought something new. -/
def loadOne (table : ImportTable) (declaration : Declaration) :
    Recorded (Except Error Bool) :=
  if declaration.onDemand then
    { result := .ok false
      table := table
      events := [.onDemandSkipped declaration] }
  else if declaration.isStatic then
    table.importStatic declaration.name
  else
    let tried := table.importType declaration.name
    match tried.result with
    | .ok (.taken existing) =>
      { result := .ok false
        table := tried.table
        events := tried.events ++ [.takenSkipped declaration existing] }
    | _ => tried.map (·.map (· == .added))

/-- Takes over declarations one after another and counts the new ones. -/
def loadAll (table : ImportTable) : List Declaration → Recorded (Except Error Nat)
  | [] => table.unchanged (.ok 0)
  | declaration :: rest =>
    let first := table.loadOne declaration
    match first.result with
    | .error error => { first with result := .error error }
    | .ok new =>
      let others := first.table.loadAll rest
      { result := others.result.map (· + if new then 1 else 0)
        table := others.table
        events := first.events ++ others.events }

/-- Takes over the declarations of an import section and counts the new ones. All of them are
read before the first is taken over, and after a failure the table is as it was. -/
def load (table : ImportTable) (lines : List String) : Recorded (Except Error Nat) :=
  match readLines lines with
  | .error error => table.unchanged (.error error)
  | .ok declarations =>
    let loaded := table.loadAll declarations
    match loaded.result with
    | .ok _ => loaded
    | .error _ => { loaded with table := table }

end ShortNames.ImportTable
