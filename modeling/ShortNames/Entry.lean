namespace ShortNames

/-- Why a simple name is taken: an import declares it, its package makes it known anyway, or it is
held back for a type of the unit. -/
inductive Standing
  | imported
  | implicit
  | held
deriving DecidableEq, Repr

def Standing.label : Standing → String
  | imported => "Import"
  | implicit => "Implicit"
  | held => "Reserved"

/-- A simple name and the full name that it stands for. -/
structure Entry where
  simple : String
  qualified : String
  standing : Standing
deriving DecidableEq, Repr

namespace Entry

def isImport (entry : Entry) : Bool :=
  entry.standing == .imported

/-- An import of a name that was known implicitly declares it from then on. -/
def promote (entry : Entry) : Entry :=
  if entry.standing = .implicit then { entry with standing := .imported } else entry

@[simp] theorem simple_promote (entry : Entry) : entry.promote.simple = entry.simple := by
  unfold promote
  split <;> rfl

@[simp] theorem qualified_promote (entry : Entry) :
    entry.promote.qualified = entry.qualified := by
  unfold promote
  split <;> rfl

end Entry

end ShortNames
