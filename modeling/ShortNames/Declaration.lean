import ShortNames.TypeName.Reader

namespace ShortNames

/-- An import declaration. One on demand imports all that its name holds. -/
structure Declaration where
  name : String
  isStatic : Bool
  onDemand : Bool
deriving DecidableEq, Repr

namespace Declaration

def ofType (name : String) : Declaration where
  name := name
  isStatic := false
  onDemand := false

def ofMember (name : String) : Declaration where
  name := name
  isStatic := true
  onDemand := false

def render (declaration : Declaration) : String :=
  "import " ++ (if declaration.isStatic then "static " else "") ++ declaration.name ++
    (if declaration.onDemand then ".*" else "") ++ ";"

/-- The name after the keyword for static imports, if that keyword is there. -/
def splitStatic (text : List Char) : Bool × List Char :=
  match Text.afterWord? "static".toList text with
  | some rest => (true, Text.trimStart rest)
  | none => (false, text)

/-- The name before the mark for imports on demand, if that mark is there. -/
def splitOnDemand (text : List Char) : Bool × List Char :=
  match ".*".toList.isSuffixOf? text with
  | some rest => (true, rest)
  | none => (false, text)

/-- Reads what stands between the keyword and the semicolon. -/
def parseBody (text : List Char) : Except ImportFault Declaration :=
  let (isStatic, text) := splitStatic text
  let (onDemand, text) := splitOnDemand text
  match TypeName.parse (String.ofList text) with
  | .error _ => .error .notQualifiedName
  | .ok name =>
    if onDemand || name.isQualified then .ok ⟨name.qualified, isStatic, onDemand⟩
    else .error .mustBeQualified

def parseTrimmed (text : List Char) : Except ImportFault Declaration :=
  match Text.afterWord? "import".toList text with
  | none => .error .expectedImport
  | some rest =>
    match [';'].isSuffixOf? (Text.trimStart rest) with
    | none => .error .missingSemicolon
    | some body => parseBody (Text.trimEnd body)

/-- Reads a line with one declaration on it. -/
def parse (line : String) : Except Error Declaration :=
  let text := Text.trim line.toList
  match parseTrimmed text with
  | .ok declaration => .ok declaration
  | .error cause => .error (.badImport (String.ofList text) cause)

end Declaration

end ShortNames
