import ShortNames.Proofs.Grammar

namespace ShortNames

/-- Of two separators only the dot is ever written. -/
def Terminal.inDots : Terminal → Terminal
  | .separator _ => .separator .dot
  | terminal => terminal

theorem Terminal.inDots_eq_word {terminal : Terminal} {word : String}
    (same : terminal.inDots = .word word) : terminal = .word word := by
  cases terminal <;> first | exact same | cases same

theorem word_mem_pathTerminals {path : List (String × Separator)} {simple word : String} :
    .word word ∈ pathTerminals path simple ↔ word ∈ path.map (·.1) ∨ word = simple := by
  simp only [pathTerminals, List.mem_append, List.mem_flatMap, List.mem_cons, Terminal.word.injEq,
    reduceCtorEq, List.not_mem_nil, or_false, List.mem_map, eq_comm]

@[simp] theorem map_inDots_pathTerminals (path : List (String × Separator)) (simple : String) :
    (pathTerminals path simple).map Terminal.inDots =
      pathTerminals (path.map fun piece => (piece.1, .dot)) simple := by
  induction path with
  | nil => rfl
  | cons piece path ih => exact congrArg ([Terminal.word piece.1, .separator .dot] ++ ·) ih

@[simp] theorem map_inDots_bracketTerminals (dims : Nat) :
    (bracketTerminals dims).map Terminal.inDots = bracketTerminals dims := by
  induction dims with
  | zero => rfl
  | succ dims ih => exact congrArg ([Terminal.openSquare, .closeSquare] ++ ·) ih

namespace TypeExpr

open Grammar

mutual
/-- How a reference is written, as the grammar sees it. -/
def terminals : TypeExpr → List Terminal
  | .named name => pathTerminals (name.enclosing.map (·, .dot)) name.simple
  | .generic head args => head.terminals ++ .openAngle :: terminalsAll args
  | .inner outer name => outer.terminals ++ [.separator .dot, .word name]
  | .array element dims => element.terminals ++ bracketTerminals dims
  | .anything => [.question]
  | .bounded bound limit => .question :: .bound bound :: limit.terminals

/-- The arguments with commas between them and the bracket that closes them. -/
def terminalsAll : List TypeExpr → List Terminal
  | [] => [.closeAngle]
  | [type] => type.terminals ++ [.closeAngle]
  | type :: next :: rest => type.terminals ++ .comma :: terminalsAll (next :: rest)
end

mutual
theorem invalid_not_mem_terminals : (type : TypeExpr) → .invalid ∉ type.terminals
  | .named name => by simp [terminals, pathTerminals]
  | .generic head args => by
    simp [terminals, invalid_not_mem_terminals head, invalid_not_mem_terminalsAll args]
  | .inner outer name => by simp [terminals, invalid_not_mem_terminals outer]
  | .array element dims => by simp [terminals, bracketTerminals, invalid_not_mem_terminals element]
  | .anything => by simp [terminals]
  | .bounded bound limit => by simp [terminals, invalid_not_mem_terminals limit]

theorem invalid_not_mem_terminalsAll : (types : List TypeExpr) → .invalid ∉ terminalsAll types
  | [] => by simp [terminalsAll]
  | [type] => by simp [terminalsAll, invalid_not_mem_terminals type]
  | type :: next :: rest => by
    simp [terminalsAll, invalid_not_mem_terminals type, invalid_not_mem_terminalsAll (next :: rest)]
end

theorem terminals_named (path : List (String × Separator)) (simple : String) :
    (named (.ofPath path simple)).terminals = (pathTerminals path simple).map Terminal.inDots := by
  rw [terminals, TypeName.enclosing_ofPath, List.map_map, map_inDots_pathTerminals]
  rfl

theorem arguments_ne_nil {level : Nat} {terminals : List Terminal} {types : List TypeExpr}
    (derived : Arguments level terminals types) : types ≠ [] := by
  cases derived <;> exact List.cons_ne_nil _ _

mutual
/-- A tree is written with the very tokens from which it was derived, up to the separators. -/
theorem terminals_of_reference : ∀ {level terminals type}, Reference level terminals type →
    type.terminals = terminals.map Terminal.inDots
  | _, _, _, .anything _ => rfl
  | _, _, _, .bounded _ derived => by
    rw [TypeExpr.terminals, terminals_of_arrayType derived]
    rfl
  | _, _, _, .unbounded _ derived => terminals_of_arrayType derived

theorem terminals_of_arrayType : ∀ {level terminals type}, ArrayType level terminals type →
    type.terminals = terminals.map Terminal.inDots
  | _, _, _, .element derived => terminals_of_classType derived
  | _, _, _, .array derived _ => by
    rw [TypeExpr.terminals, terminals_of_classType derived, List.map_append, map_inDots_bracketTerminals]

theorem terminals_of_classType : ∀ {level terminals type}, ClassType level terminals type →
    type.terminals = terminals.map Terminal.inDots
  | _, _, _, .plain => terminals_named _ _
  | _, _, _, .applied _ listed derived => by
    rw [terminals_of_inners derived, TypeExpr.terminals, terminals_named, terminals_of_arguments listed]
    simp [Terminal.inDots]

theorem terminals_of_arguments : ∀ {level terminals types}, Arguments level terminals types →
    terminalsAll types = terminals.map Terminal.inDots
  | _, _, _, .last derived => by
    rw [terminalsAll, terminals_of_reference derived, List.map_append]
    rfl
  | _, _, _, @Arguments.more _ _ _ _ types derived listed => by
    have tail := terminals_of_arguments listed
    have nonempty := arguments_ne_nil listed
    cases types with
    | nil => exact absurd rfl nonempty
    | cons next rest =>
      rw [terminalsAll, terminals_of_reference derived, tail, List.map_append]
      rfl

theorem terminals_of_applied : ∀ {level head terminals type}, Applied level head terminals type →
    type.terminals = head.terminals ++ terminals.map Terminal.inDots
  | _, _, _, _, .plain => (List.append_nil _).symm
  | _, _, _, _, .applied listed => by
    rw [TypeExpr.terminals, terminals_of_arguments listed]
    rfl

theorem terminals_of_inners : ∀ {level outer terminals type}, Inners level outer terminals type →
    type.terminals = outer.terminals ++ terminals.map Terminal.inDots
  | _, _, _, _, .done => (List.append_nil _).symm
  | _, _, _, _, .next _ applied derived => by
    rw [terminals_of_inners derived, terminals_of_applied applied, TypeExpr.terminals]
    simp [Terminal.inDots]
end

end TypeExpr

end ShortNames
