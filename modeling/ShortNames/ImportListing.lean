import ShortNames.ImportTable.Basic
import ShortNames.Layout.Basic

namespace ShortNames

/-- The import section of a unit: static imports, and the other imports in groups. -/
structure ImportListing where
  statics : List String
  groups : List (List String)
deriving DecidableEq, Repr

namespace ImportListing

inductive Line
  | item (declaration : Declaration)
  | blank
deriving DecidableEq, Repr

def Line.render : Line → String
  | item declaration => declaration.render
  | blank => ""

def Line.declaration? : Line → Option Declaration
  | item declaration => some declaration
  | blank => none

def sorted (names : List String) : List String :=
  names.mergeSort (fun first second => decide (first ≤ second))

/-- The names with equal group keys, sorted, group after group. -/
def groupNames (layout : Layout) (names : List String) : List (List String) :=
  let keys := (names.map layout.keyOf).eraseDups
  (layout.arrangement.arrange keys).map fun key =>
    sorted (names.filter (layout.keyOf · == key))

def ofTable (layout : Layout) (table : ImportTable) : ImportListing where
  statics := if layout.sortStatics then sorted table.statics else table.statics
  groups := groupNames layout table.imports

/-- What making the listing tells. -/
def event (listing : ImportListing) : Event :=
  .listingMade listing.statics.length listing.groups.length

/-- The paragraphs of the section. The static imports are one if there are any. -/
def paragraphs (listing : ImportListing) : List (List Declaration) :=
  (if listing.statics.isEmpty then [] else [listing.statics.map .ofMember]) ++
    listing.groups.map (·.map .ofType)

/-- The lines of the section, with a blank line between paragraphs. -/
def lines (listing : ImportListing) : List Line :=
  [Line.blank].intercalate (listing.paragraphs.map (·.map .item))

def declarations (listing : ImportListing) : List Declaration :=
  listing.lines.filterMap Line.declaration?

def isEmpty (listing : ImportListing) : Bool :=
  listing.lines.isEmpty

def render (listing : ImportListing) : String :=
  "\n".intercalate (listing.lines.map Line.render)

end ImportListing

end ShortNames
