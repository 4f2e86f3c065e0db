import ShortNames.Identifier.Start
import ShortNames.Identifier.Extend
import ShortNames.Text

namespace ShortNames

def isXidStart (c : Char) : Bool :=
  inRanges c.toNat startRanges

def isIdentifierStart (c : Char) : Bool :=
  c == '_' || isXidStart c

/-- Every character that opens an identifier may also follow in one. -/
def isIdentifierPart (c : Char) : Bool :=
  isXidStart c || inRanges c.toNat extendRanges

/-- A word is one opening character and then only following ones. -/
def isWord : List Char → Bool
  | [] => false
  | c :: rest => isIdentifierStart c && rest.all isIdentifierPart

def isIdentifier (text : String) : Bool :=
  isWord text.toList

theorem isIdentifierPart_of_start {c : Char} (start : isIdentifierStart c = true) :
    isIdentifierPart c = true := by
  simp only [isIdentifierStart, Bool.or_eq_true, beq_iff_eq] at start
  rcases start with rfl | start
  · decide +kernel
  · simp only [isIdentifierPart, start, Bool.true_or]

theorem isWord_all {word : List Char} (valid : isWord word = true) :
    word.all isIdentifierPart = true := by
  cases word with
  | nil => rfl
  | cons c rest =>
    simp only [isWord, Bool.and_eq_true] at valid
    simp only [List.all_cons, isIdentifierPart_of_start valid.1, valid.2, Bool.and_self]

/-- The keywords of the primitive types, and of the absent result. -/
def primitiveKeywords : List String :=
  ["boolean", "byte", "char", "short", "int", "long", "float", "double", "void"]

def isPrimitiveKeyword (text : String) : Bool :=
  primitiveKeywords.contains text

end ShortNames
