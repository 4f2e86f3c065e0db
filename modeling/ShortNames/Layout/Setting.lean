import ShortNames.Layout.Basic

namespace ShortNames

/-- A value in a configuration. A number keeps its numeral, as a count is told from other numbers
by how it is written. -/
inductive Setting
  | null
  | flag (value : Bool)
  | number (numeral : String)
  | text (value : String)
  | list (items : List Setting)
  | record (fields : List (String × Setting))
deriving Inhabited, Repr

namespace Setting

def text? : Setting → Option String
  | text value => some value
  | _ => none

def flag? : Setting → Option Bool
  | flag value => some value
  | _ => none

/-- How many values a count can have: those of 64 bits. -/
def countLimit : Nat := Nat.pow 2 64

/-- A count is written in digits only, without sign, point or exponent, and has a limit. -/
def count? : Setting → Option Nat
  | number numeral =>
    let digits := numeral.toList
    let value := Nat.ofDigitChars 10 digits 0
    if digits ≠ [] ∧ digits.all Char.isDigit = true ∧ value < countLimit then some value else none
  | _ => none

def ofCount (value : Nat) : Setting :=
  number (toString value)

/-- The values of a record by their keys. A list gives the values of the first of them in order,
and no more than there are. -/
def fields? (keys : List String) : Setting → Option (List (String × Setting))
  | record fields => some fields
  | list items => if items.length ≤ keys.length then some (keys.zip items) else none
  | _ => none

/-- The value of a field as far as it is there: a missing field has the default, a bad value none. -/
def field? {α : Type} (fields : List (String × Setting)) (key : String) (read : Setting → Option α)
    (default : α) : Option α :=
  match fields.lookup key with
  | none => some default
  | some value => read value

end Setting

namespace Arrangement

def ofSetting? : Setting → Option Arrangement
  | .text "lexicographic" | .record [("lexicographic", .null)] => some .alphabetical
  | .text "first_seen" | .record [("first_seen", .null)] => some .firstUse
  | .record [("pinned", .list items)] => (items.mapM Setting.text?).map .pinned
  | _ => none

def toSetting : Arrangement → Setting
  | alphabetical => .text "lexicographic"
  | firstUse => .text "first_seen"
  | pinned packages => .record [("pinned", .list (packages.map .text))]

end Arrangement

namespace Layout

/-- The keys of a layout, in the order that holds where values come without keys. -/
def settingKeys : List String :=
  ["group_depth", "group_order", "sort_static_imports"]

/-- Reads a layout. Values that are not given have their defaults, and keys that are not known do
not matter. -/
def ofSetting? (setting : Setting) : Option Layout := do
  let fields ← setting.fields? settingKeys
  let depth ← Setting.field? fields "group_depth" Setting.count? ({} : Layout).depth
  let arrangement ←
    Setting.field? fields "group_order" Arrangement.ofSetting? ({} : Layout).arrangement
  let sort ← Setting.field? fields "sort_static_imports" Setting.flag? ({} : Layout).sortStatics
  return ⟨depth, arrangement, sort⟩

def toSetting (layout : Layout) : Setting :=
  .record [("group_depth", .ofCount layout.depth),
    ("group_order", layout.arrangement.toSetting),
    ("sort_static_imports", .flag layout.sortStatics)]

end Layout

end ShortNames
