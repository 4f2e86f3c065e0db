import ShortNames.Error
import ShortNames.Text
import ShortNames.TypeName.Basic

namespace ShortNames.TypeName

/-- Cuts a text at its separators: every piece with the separator after it, then the last piece. -/
def pieces : List Char → List (List Char × Separator) × List Char
  | [] => ([], [])
  | c :: rest =>
    match Separator.ofChar? c, pieces rest with
    | some separator, (before, last) => (([], separator) :: before, last)
    | none, ([], last) => ([], c :: last)
    | none, ((piece, separator) :: before, last) => ((c :: piece, separator) :: before, last)

/-- The leftmost piece that is no identifier, where the pieces start at a given byte. A separator takes
one byte. Of the place that is reported only the last 32 bits are kept. -/
def firstFault? (start : Nat) : List (List Char) → Option Fault
  | [] => none
  | piece :: rest =>
    if piece.isEmpty then some ⟨.ofNat start, .missingIdentifier⟩
    else if isWord piece then firstFault? (start + Text.byteLength piece + 1) rest
    else some ⟨.ofNat start, .invalidCharacter⟩

/-- Reads a name, blanks around it allowed. Offsets count from the start of the text as given. -/
def parse (text : String) : Except Error TypeName :=
  let trimmed := Text.trim text.toList
  if trimmed.isEmpty then
    .error (.malformed text ⟨0, .empty⟩)
  else
    let (before, last) := pieces trimmed
    let lead := Text.byteLength (text.toList.takeWhile isBlank)
    match firstFault? lead (before.map (·.1) ++ [last]) with
    | some fault => .error (.malformed text fault)
    | none => .ok (ofPath (before.map fun (piece, separator) => (String.ofList piece, separator))
        (String.ofList last))

end ShortNames.TypeName
