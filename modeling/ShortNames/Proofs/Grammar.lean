import ShortNames.TypeExpr.Reader

namespace ShortNames

/-- What the grammar of references sees of a token: its kind, and the text of a word. -/
inductive Terminal
  | word (text : String)
  | separator (separator : Separator)
  | comma
  | openAngle
  | closeAngle
  | openSquare
  | closeSquare
  | question
  | bound (bound : Bound)
  | invalid
deriving DecidableEq, Repr

def Terminal.kind : Terminal → Token.Kind
  | .word _ => .identifier
  | .separator mark => .separator mark
  | .comma => .comma
  | .openAngle => .openAngle
  | .closeAngle => .closeAngle
  | .openSquare => .openSquare
  | .closeSquare => .closeSquare
  | .question => .question
  | .bound .upper => .extendsWord
  | .bound .lower => .superWord
  | .invalid => .invalid

def Token.terminal (token : Token) : Terminal :=
  match token.kind with
  | .identifier => .word token.text
  | .separator mark => .separator mark
  | .comma => .comma
  | .openAngle => .openAngle
  | .closeAngle => .closeAngle
  | .openSquare => .openSquare
  | .closeSquare => .closeSquare
  | .question => .question
  | .extendsWord => .bound .upper
  | .superWord => .bound .lower
  | .invalid => .invalid

/-- A name as it is written: words with separators between them. -/
def pathTerminals (path : List (String × Separator)) (simple : String) : List Terminal :=
  path.flatMap (fun piece => [.word piece.1, .separator piece.2]) ++ [.word simple]

def bracketTerminals (dims : Nat) : List Terminal :=
  (List.replicate dims [Terminal.openSquare, .closeSquare]).flatten

/-- Only a keyword on its own is a primitive type. -/
theorem TypeName.primitive_ofPath_eq_false {path : List (String × Separator)} {simple : String} :
    (ofPath path simple).primitive = false ↔ (path = [] → isPrimitiveKeyword simple = false) := by
  cases path <;> simp [ofPath]

namespace Grammar

/- The rules for references, at a given level of nesting. A reference stands at a level below the
cap. What its arguments hold stands one level deeper. Each inner level goes one level deeper than
what is before it, together with its own arguments, and may reach the cap but not pass it. -/
mutual
inductive Reference : Nat → List Terminal → TypeExpr → Prop
  | anything {level} : level < TypeExpr.maxNesting → Reference level [.question] .anything
  | bounded {level bound terminals limit} : level < TypeExpr.maxNesting →
      ArrayType level terminals limit →
      Reference level (.question :: .bound bound :: terminals) (.bounded bound limit)
  | unbounded {level terminals type} : level < TypeExpr.maxNesting →
      ArrayType level terminals type → Reference level terminals type

inductive ArrayType : Nat → List Terminal → TypeExpr → Prop
  | element {level terminals type} : ClassType level terminals type → ArrayType level terminals type
  | array {level terminals type dims} : ClassType level terminals type → 0 < dims →
      ArrayType level (terminals ++ bracketTerminals dims) (.array type dims)

/-- Without arguments a name takes all the pieces there are, so inner levels come only behind
arguments. A primitive type takes none. -/
inductive ClassType : Nat → List Terminal → TypeExpr → Prop
  | plain {level path simple} :
      ClassType level (pathTerminals path simple) (.named (.ofPath path simple))
  | applied {level path simple args types levels type} :
      (path = [] → isPrimitiveKeyword simple = false) →
      Arguments (level + 1) args types →
      Inners (level + 1) (.generic (.named (.ofPath path simple)) types) levels type →
      ClassType level (pathTerminals path simple ++ .openAngle :: args ++ levels) type

/-- The arguments behind an opened bracket, with the bracket that closes them. -/
inductive Arguments : Nat → List Terminal → List TypeExpr → Prop
  | last {level terminals type} : Reference level terminals type →
      Arguments level (terminals ++ [.closeAngle]) [type]
  | more {level terminals type rest types} : Reference level terminals type →
      Arguments level rest types → Arguments level (terminals ++ .comma :: rest) (type :: types)

/-- A head with or without arguments behind it. -/
inductive Applied : Nat → TypeExpr → List Terminal → TypeExpr → Prop
  | plain {level head} : Applied level head [] head
  | applied {level head args types} : Arguments level args types →
      Applied level head (.openAngle :: args) (.generic head types)

/-- The inner levels behind a type, and the type with all of them. -/
inductive Inners : Nat → TypeExpr → List Terminal → TypeExpr → Prop
  | done {level type} : Inners level type [] type
  | next {level outer separator name args inner rest type} : level + 1 ≤ TypeExpr.maxNesting →
      Applied (level + 1) (.inner outer name) args inner → Inners (level + 1) inner rest type →
      Inners level outer (.separator separator :: .word name :: args ++ rest) type
end

end Grammar

end ShortNames
