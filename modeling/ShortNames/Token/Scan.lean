import ShortNames.Text
import ShortNames.Token.Basic

namespace ShortNames.Token

/-- The only characters that may stand between tokens. -/
def isGap (c : Char) : Bool :=
  c == ' ' || c == '\t' || c == '\r' || c == '\n'

/-- The code points whose UTF-8 lead byte (EE, F1, F2 or F4) begins no identifier character. -/
def foreignLeads : List (Nat × Nat) :=
  [(0xE000, 0xEFFF), (0x40000, 0xBFFFF), (0x100000, 0x10FFFF)]

/-- Whether a keyword may end before the character that follows it. One byte decides: the
lead byte of that character must not be able to begin a character that continues the word. -/
def endsKeyword : Option Char → Bool
  | none => true
  | some c => c.toNat < 128 || inRanges c.toNat foreignLeads

/-- The kind of a whole word, given the character after it. -/
def Kind.ofWord (word : List Char) (next : Option Char) : Kind :=
  if word = "extends".toList ∧ endsKeyword next = true then .extendsWord
  else if word = "super".toList ∧ endsKeyword next = true then .superWord
  else .identifier

/-- Scans the rest of a text that starts at a given byte. A word is as long as it can be. -/
def scanFrom (start : Nat) : List Char → List Token
  | [] => []
  | c :: rest =>
    if isGap c then
      scanFrom (start + c.utf8Size) rest
    else if isIdentifierStart c then
      let word := c :: rest.takeWhile isIdentifierPart
      let after := rest.dropWhile isIdentifierPart
      ⟨.ofWord word after.head?, String.ofList word, .ofNatClamp start⟩ ::
        scanFrom (start + Text.byteLength word) after
    else
      ⟨.ofChar c, String.singleton c, .ofNatClamp start⟩ :: scanFrom (start + c.utf8Size) rest
termination_by text => text.length
decreasing_by
  · simp
  · have := (List.dropWhile_suffix isIdentifierPart (l := rest)).length_le
    simp only [List.length_cons]
    omega
  · simp

/-- The tokens of a text, in order. No text is refused: what cannot be read is an invalid token. -/
def scan (text : String) : List Token :=
  scanFrom 0 text.toList

end ShortNames.Token
