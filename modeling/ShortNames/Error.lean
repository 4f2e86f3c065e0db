namespace ShortNames

/-- What can be wrong with the text of a reference. -/
inductive Malformation
  | empty
  | unbalancedAngles
  | unbalancedSquares
  | invalidCharacter
  | unexpectedToken
  | missingIdentifier
  | argumentsOnPrimitive
  | wildcardBound
  | nestingTooDeep
deriving DecidableEq, Repr

def Malformation.text : Malformation → String
  | empty => "empty reference"
  | unbalancedAngles => "unbalanced '<' / '>'"
  | unbalancedSquares => "unbalanced '[' / ']'"
  | invalidCharacter => "invalid character"
  | unexpectedToken => "unexpected token"
  | missingIdentifier => "missing identifier"
  | argumentsOnPrimitive => "type arguments on a primitive type"
  | wildcardBound => "wildcard bound must be 'extends' or 'super'"
  | nestingTooDeep => "type nesting too deep"

/-- A malformation and the byte offset at which it was noticed, as a word of 32 bits. -/
structure Fault where
  offset : UInt32
  cause : Malformation
deriving DecidableEq, Repr

/-- Why a name cannot be imported, held or put in scope. -/
inductive ImportFault
  | expectedImport
  | missingSemicolon
  | notQualifiedName
  | mustBeQualified
  | primitiveImported
  | primitiveHeld
  | staticWithoutType
  | declaredNotIdentifier
  | notIdentifier
  | primitiveEnclosing
  | inheritedWithoutType
deriving DecidableEq, Repr

def ImportFault.text : ImportFault → String
  | expectedImport => "expected 'import'"
  | missingSemicolon => "missing ';'"
  | notQualifiedName => "imported name is not a qualified name"
  | mustBeQualified => "imported name must be qualified"
  | primitiveImported => "primitive types cannot be imported"
  | primitiveHeld => "primitive types cannot be reserved"
  | staticWithoutType => "static imports need the declaring type"
  | declaredNotIdentifier => "declared type name is not an identifier"
  | notIdentifier => "not an identifier"
  | primitiveEnclosing => "primitive types cannot enclose other types"
  | inheritedWithoutType => "inherited member types need their enclosing type"

/-- Why a list of layers is no scope chain. The layer at fault goes by its label. -/
inductive ChainFault
  | noLayers
  | outermostNotUnit (label : String)
  | innerUnit (label : String)
deriving DecidableEq, Repr

def ChainFault.text : ChainFault → String
  | noLayers => "scope chain has no layers"
  | outermostNotUnit label => "scope chain must end in a compilation-unit scope, found " ++ label
  | innerUnit label => "compilation-unit scope " ++ label ++ " is not the outermost layer"

inductive Error
  | malformed (reference : String) (fault : Fault)
  | badImport (declaration : String) (cause : ImportFault)
  | badChain (cause : ChainFault)
deriving DecidableEq, Repr

/-- How reading ends without a result: with an error, or with no answer at all, where the end of the
text is farther away than 32 bits can say. -/
inductive Failure (ε : Type)
  | error (error : ε)
  | overflow
deriving DecidableEq, Repr

def Failure.map {ε δ : Type} (change : ε → δ) : Failure ε → Failure δ
  | error cause => error (change cause)
  | overflow => overflow

def Error.message : Error → String
  | malformed reference fault =>
    "Malformed reference '" ++ reference ++ "' at offset " ++ toString fault.offset ++ ": " ++
      fault.cause.text
  | badImport declaration cause => "Invalid import '" ++ declaration ++ "': " ++ cause.text
  | badChain cause => "Invalid scope composition: " ++ cause.text

end ShortNames
