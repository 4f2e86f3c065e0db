import ShortNames.Error
import ShortNames.Token.Scan
import ShortNames.TypeExpr.Basic

namespace ShortNames

/-- What a token out of place is called. -/
def Token.Kind.misplaced : Token.Kind → Malformation
  | .openAngle | .closeAngle => .unbalancedAngles
  | .openSquare | .closeSquare => .unbalancedSquares
  | .invalid => .invalidCharacter
  | _ => .unexpectedToken

namespace TypeExpr

/-- How many references and inner levels may be open at the same time. -/
def maxNesting : Nat := 64

/-- A step of the reader takes what it reads from the front of the tokens. -/
abbrev Step (α : Type) := List Token → Except (Failure Fault) (α × List Token)

def refuseAt {α : Type} (offset : UInt32) (cause : Malformation) : Except (Failure Fault) α :=
  .error (.error ⟨offset, cause⟩)

/-- Refuses the token that comes next. At the end of the text, which is byte `stop`, there is no answer
unless 32 bits can say where that is. -/
def refuse {α : Type} (stop : Nat) (cause : Malformation) : List Token → Except (Failure Fault) α
  | [] => if stop < UInt32.size then refuseAt (.ofNat stop) cause else .error .overflow
  | token :: _ => refuseAt token.offset cause

def identifier (stop : Nat) : Step String
  | [] => refuse stop .missingIdentifier []
  | ⟨kind, text, offset⟩ :: rest =>
    match kind with
    | .identifier => .ok (text, rest)
    | .separator _ | .comma => refuseAt offset .missingIdentifier
    | other => refuseAt offset other.misplaced

/-- The identifiers at the front that have a separator behind them. -/
def qualifiers : List Token → List (String × Separator) × List Token
  | ⟨.identifier, text, _⟩ :: ⟨.separator separator, _, _⟩ :: rest =>
    let (more, after) := qualifiers rest
    ((text, separator) :: more, after)
  | tokens => ([], tokens)

/-- The pairs of square brackets at the front. -/
def dimensions : Step Nat
  | ⟨.openSquare, _, _⟩ :: ⟨.closeSquare, _, _⟩ :: rest => do
    let (dims, after) ← dimensions rest
    return (dims + 1, after)
  | ⟨.openSquare, _, offset⟩ :: _ => refuseAt offset .unbalancedSquares
  | tokens => .ok (0, tokens)

/-- The arguments behind an angle bracket that was opened at a given offset, and the bracket
that closes them. Every argument takes a token, so a count of the tokens bounds the loop: it
runs out only where the tokens do. -/
def arguments (reference : Step TypeExpr) (opened : UInt32) : Nat → Step (List TypeExpr)
  | 0, _ | _, [] => refuseAt opened .unbalancedAngles
  | count + 1, token :: rest =>
    match token.kind with
    | .closeAngle | .comma => refuseAt token.offset .missingIdentifier
    | _ => do
      let (arg, after) ← reference (token :: rest)
      match after with
      | [] => refuseAt opened .unbalancedAngles
      | ⟨.closeAngle, _, _⟩ :: after => return ([arg], after)
      | ⟨.comma, _, _⟩ :: after =>
        let (args, after) ← arguments reference opened count after
        return (arg :: args, after)
      | ⟨kind, _, offset⟩ :: _ => refuseAt offset kind.misplaced

/-- A head with the arguments behind it, if an angle bracket opens. -/
def argumentsOf (reference : Step TypeExpr) (head : TypeExpr) : Step TypeExpr
  | ⟨.openAngle, _, opened⟩ :: rest => do
    let (args, after) ← arguments reference opened rest.length rest
    return (.generic head args, after)
  | tokens => .ok (head, tokens)

/-- A name, its arguments, and the inner levels behind them. Without arguments there are no
inner levels, as the name takes every piece there is. -/
def classType (stop : Nat) (reference : Step TypeExpr) (inners : TypeExpr → Step TypeExpr) :
    Step TypeExpr := fun tokens => do
  let (before, rest) := qualifiers tokens
  let (simple, rest) ← identifier stop rest
  let name := TypeName.ofPath before simple
  match rest with
  | ⟨.openAngle, _, _⟩ :: _ =>
    if name.primitive then
      refuse stop .argumentsOnPrimitive tokens
    else
      let (type, rest) ← argumentsOf reference (.named name) rest
      inners type rest
  | _ => return (.named name, rest)

def arrayType (element : Step TypeExpr) : Step TypeExpr := fun tokens => do
  let (type, rest) ← element tokens
  let (dims, rest) ← dimensions rest
  return (if dims = 0 then type else .array type dims, rest)

/-- What follows a question mark. A wildcard without bound must end where an argument may. -/
def wildcard (limit : Step TypeExpr) : Step TypeExpr
  | [] => .ok (.anything, [])
  | token :: rest =>
    match token.kind with
    | .extendsWord => do
      let (type, after) ← limit rest
      return (.bounded .upper type, after)
    | .superWord => do
      let (type, after) ← limit rest
      return (.bounded .lower type, after)
    | .comma | .closeAngle => .ok (.anything, token :: rest)
    | _ => refuseAt token.offset .wildcardBound

mutual
/-- Reads a reference with a given number of levels to spare, of which it takes one. -/
def reference (stop : Nat) : Nat → Step TypeExpr
  | 0, tokens => refuse stop .nestingTooDeep tokens
  | levels + 1, tokens =>
    let type := arrayType (classType stop (reference stop levels) (inners stop levels))
    match tokens with
    | ⟨.question, _, _⟩ :: rest => wildcard type rest
    | _ => type tokens

/-- Reads the inner levels behind a type. Each takes one level, also from those after it. -/
def inners (stop : Nat) : Nat → TypeExpr → Step TypeExpr
  | 0, outer, tokens =>
    match tokens with
    | ⟨.separator _, _, offset⟩ :: _ => refuseAt offset .nestingTooDeep
    | _ => .ok (outer, tokens)
  | levels + 1, outer, tokens =>
    match tokens with
    | ⟨.separator _, _, _⟩ :: rest => do
      let (name, rest) ← identifier stop rest
      let (type, rest) ← argumentsOf (reference stop levels) (.inner outer name) rest
      inners stop levels type rest
    | _ => .ok (outer, tokens)
end

/-- Reads the tokens of a whole text that ends at byte `stop`. -/
def ofTokens (stop : Nat) (tokens : List Token) : Except (Failure Fault) TypeExpr := do
  let (type, rest) ← reference stop maxNesting tokens
  match rest with
  | [] => return type
  | token :: _ => refuseAt token.offset token.kind.misplaced

/-- Reads a reference. -/
def parse (text : String) : Except (Failure Error) TypeExpr :=
  if text.toList.all isBlank then
    .error (.error (.malformed text ⟨0, .empty⟩))
  else
    match ofTokens (Text.byteLength text.toList) (Token.scan text) with
    | .ok type => .ok type
    | .error failure => .error (failure.map (.malformed text))

end TypeExpr

end ShortNames
