import ShortNames.TypeName.Basic

namespace ShortNames

namespace Token

inductive Kind
  | identifier
  | separator (separator : Separator)
  | comma
  | openAngle
  | closeAngle
  | openSquare
  | closeSquare
  | question
  | extendsWord
  | superWord
  | invalid
deriving DecidableEq, Repr

end Token

/-- A piece of the text of a reference, with the byte offset at which it starts. An offset has 32 bits,
and where they do not suffice it is the greatest that they can say. -/
structure Token where
  kind : Token.Kind
  text : String
  offset : UInt32
deriving DecidableEq, Repr

namespace Token

def isSeparator (token : Token) : Bool :=
  match token.kind with
  | .separator _ => true
  | _ => false

/-- The kind of a character that is a token by itself. -/
def Kind.ofChar : Char → Kind
  | '.' => .separator .dot
  | '$' => .separator .dollar
  | ',' => .comma
  | '<' => .openAngle
  | '>' => .closeAngle
  | '[' => .openSquare
  | ']' => .closeSquare
  | '?' => .question
  | _ => .invalid

end Token

end ShortNames
