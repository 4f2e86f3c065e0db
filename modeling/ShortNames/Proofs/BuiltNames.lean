import ShortNames.Declaration
import ShortNames.Proofs.MeaningKept
import ShortNames.Proofs.NamePieces

namespace ShortNames

namespace TypeExpr

mutual
theorem word_mem_terminals_of_name {name : TypeName} {piece : String}
    (inName : piece ∈ name.enclosing ++ [name.simple]) :
    (type : TypeExpr) → name ∈ type.names → .word piece ∈ type.terminals
  | .named other, member => by
    rw [List.mem_singleton.mp member] at inName
    rw [terminals, word_mem_pathTerminals]
    simpa [Function.comp_def] using inName
  | .generic head args, member => by
    simp only [terminals, List.mem_append, List.mem_cons, reduceCtorEq, false_or]
    exact (List.mem_append.mp member).imp (word_mem_terminals_of_name inName head)
      (word_mem_terminalsAll_of_name inName args)
  | .inner outer _, member => by
    exact List.mem_append_left _ (word_mem_terminals_of_name inName outer member)
  | .array element _, member => by
    exact List.mem_append_left _ (word_mem_terminals_of_name inName element member)
  | .anything, member => nomatch member
  | .bounded _ limit, member => by
    have inLimit := word_mem_terminals_of_name inName limit member
    exact List.mem_cons_of_mem _ (List.mem_cons_of_mem _ inLimit)

theorem word_mem_terminalsAll_of_name {name : TypeName} {piece : String}
    (inName : piece ∈ name.enclosing ++ [name.simple]) :
    (types : List TypeExpr) → name ∈ namesAll types → .word piece ∈ terminalsAll types
  | [], member => nomatch member
  | [type], member => by
    rw [namesAll, namesAll, List.append_nil] at member
    exact List.mem_append_left _ (word_mem_terminals_of_name inName type member)
  | type :: next :: rest, member => by
    simp only [terminalsAll, List.mem_append, List.mem_cons, reduceCtorEq, false_or]
    exact (List.mem_append.mp member).imp (word_mem_terminals_of_name inName type)
      (word_mem_terminalsAll_of_name inName (next :: rest))
end

/-- The names in a reference that was read are made of identifiers. -/
theorem isWritten_of_mem_names {text : String} {type : TypeExpr} (parsed : parse text = .ok type)
    {name : TypeName} (member : name ∈ type.names) : name.IsWritten := by
  intro piece inName
  exact (isPlainWord_iff.mp (isPlainWord_of_parse parsed (word_mem_terminals_of_name inName type member))).1

end TypeExpr

namespace TypeName

/-- The ways in which names come about: one is read on its own, or as part of a reference, or it is
made of a keyword. -/
inductive IsBuilt : TypeName → Prop
  | read {text : String} {name : TypeName} : parse text = .ok name → IsBuilt name
  | inReference {text : String} {type : TypeExpr} {name : TypeName} :
      TypeExpr.parse text = .ok type → name ∈ type.names → IsBuilt name
  | keyword (keyword : String) : IsBuilt (ofKeyword keyword)

theorem isPath_of_parse {text : String} {name : TypeName} (parsed : parse text = .ok name) : name.IsPath := by
  unfold parse at parsed
  dsimp only at parsed
  split at parsed
  · cases parsed
  · split at parsed
    · cases parsed
    · cases parsed
      exact ⟨_, _, rfl⟩

theorem IsBuilt.isWritten {name : TypeName} (built : name.IsBuilt) (ordinary : name.primitive = false) :
    name.IsWritten := by
  cases built with
  | read parsed => exact isWritten_of_parse parsed
  | inReference parsed member => exact TypeExpr.isWritten_of_mem_names parsed member
  | keyword keyword => cases ordinary

/-- A primitive type has no qualifier. -/
theorem IsBuilt.isShortenable {name : TypeName} (built : name.IsBuilt) (qualified : name.isQualified = true) :
    name.isShortenable = true := by
  cases built with
  | read parsed => exact (isPath_of_parse parsed).isShortenable qualified
  | inReference parsed member => exact (TypeExpr.isPath_of_parse parsed _ member).isShortenable qualified
  | keyword keyword => cases qualified

theorem IsBuilt.isWritten_of_isQualified {name : TypeName} (built : name.IsBuilt)
    (qualified : name.isQualified = true) : name.IsWritten := by
  have shortenable := built.isShortenable qualified
  refine built.isWritten ?_
  simpa [TypeName.isShortenable, qualified] using shortenable

/-- The full name of a name is read as that name with dots in it. -/
theorem IsWritten.parse_qualified {name : TypeName} (written : name.IsWritten) :
    parse name.qualified = .ok name.inDots :=
  parse_dotted written

end TypeName

namespace Declaration

theorem eq_ofType {declaration : Declaration} (single : declaration.onDemand = false)
    (regular : declaration.isStatic = false) : declaration = .ofType declaration.name := by
  cases declaration
  cases single
  cases regular
  rfl

theorem eq_ofMember {declaration : Declaration} (single : declaration.onDemand = false)
    (static : declaration.isStatic = true) : declaration = .ofMember declaration.name := by
  cases declaration
  cases single
  cases static
  rfl

theorem name_of_parseBody {text : List Char} {declaration : Declaration}
    (parsed : parseBody text = .ok declaration) :
    ∃ name : TypeName, name.IsWritten ∧ declaration.name = name.qualified ∧
      (declaration.onDemand = false → name.isQualified = true) := by
  unfold parseBody at parsed
  dsimp only at parsed
  split at parsed
  · cases parsed
  · rename_i name read
    split at parsed
    · rename_i allowed
      cases parsed
      refine ⟨name, TypeName.isWritten_of_parse read, rfl, fun single => ?_⟩
      dsimp only at single
      rwa [single, Bool.false_or] at allowed
    · cases parsed

/-- A declaration that was read names its type or member in full. -/
theorem name_of_parse {line : String} {declaration : Declaration} (parsed : parse line = .ok declaration) :
    ∃ name : TypeName, name.IsWritten ∧ declaration.name = name.qualified ∧
      (declaration.onDemand = false → name.isQualified = true) := by
  unfold parse at parsed
  dsimp only at parsed
  split at parsed
  · rename_i read
    cases parsed
    unfold parseTrimmed at read
    split at read
    · cases read
    · split at read
      · cases read
      · exact name_of_parseBody read
  · cases parsed

/-- The name in a declaration is read once more when it is taken over, and is the same. -/
theorem qualified_of_reread {line : String} {declaration : Declaration} (parsed : parse line = .ok declaration)
    {name : TypeName} (read : TypeName.parse declaration.name = .ok name) : name.qualified = declaration.name := by
  obtain ⟨original, written, full, -⟩ := name_of_parse parsed
  rw [full, written.parse_qualified] at read
  rw [← Except.ok.inj read, original.qualified_inDots, ← full]

end Declaration

end ShortNames
