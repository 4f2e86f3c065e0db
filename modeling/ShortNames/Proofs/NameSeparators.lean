import ShortNames.Proofs.Grammar

namespace ShortNames

namespace TypeName

/-- Only a dollar makes a piece of a path a type around the simple name. -/
theorem outers_ofPath_ne_nil {path : List (String × Separator)} {simple : String} :
    (ofPath path simple).outers ≠ [] ↔ .dollar ∈ path.map (·.2) := by
  induction path with
  | nil => simp [ofPath]
  | cons piece path ih =>
    obtain ⟨text, mark⟩ := piece
    cases mark with
    | dot => simpa [ofPath] using ih
    | dollar => simp [ofPath]

/-- Some of the names have types around their simple names. -/
def SomeNested (names : List TypeName) : Prop :=
  ∃ name ∈ names, name.outers ≠ []

theorem someNested_append {first second : List TypeName} :
    SomeNested (first ++ second) ↔ SomeNested first ∨ SomeNested second := by
  simp only [SomeNested, List.mem_append, or_and_right, exists_or]

end TypeName

namespace Grammar

open ShortNames.TypeName (SomeNested someNested_append)

/-- The separators that stand inside names. Behind a closed bracket, as long as only words and
separators follow, these start inner levels instead. -/
def nameSeparators (behind : Bool) : List Terminal → List Separator
  | [] => []
  | .word _ :: rest => nameSeparators behind rest
  | .separator mark :: rest => if behind then nameSeparators true rest else mark :: nameSeparators false rest
  | .closeAngle :: rest => nameSeparators true rest
  | _ :: rest => nameSeparators false rest

/-- What follows is no part of a name and starts no inner level. -/
def StopsName (after : List Terminal) : Prop :=
  nameSeparators true after = nameSeparators false after

theorem nameSeparators_path (path : List (String × Separator)) (simple : String) (after : List Terminal) :
    nameSeparators false (pathTerminals path simple ++ after) = path.map (·.2) ++ nameSeparators false after := by
  induction path with
  | nil => rfl
  | cons piece path ih => exact congrArg (piece.2 :: ·) ih

theorem dollar_mem_path {path : List (String × Separator)} {simple : String} {after : List Terminal} :
    .dollar ∈ nameSeparators false (pathTerminals path simple ++ after) ↔
      SomeNested [.ofPath path simple] ∨ .dollar ∈ nameSeparators false after := by
  rw [nameSeparators_path, List.mem_append, ← @TypeName.outers_ofPath_ne_nil path simple]
  simp [SomeNested]

theorem nameSeparators_brackets (dims : Nat) (after : List Terminal) :
    nameSeparators false (bracketTerminals dims ++ after) = nameSeparators false after := by
  induction dims with
  | zero => rfl
  | succ dims ih => exact ih

mutual
/-- The names in a derived tree show whether there was a dollar in one of them. -/
theorem dollar_mem_reference : ∀ {level terminals type}, Reference level terminals type →
    ∀ {after}, StopsName after → (.dollar ∈ nameSeparators false (terminals ++ after) ↔
      SomeNested type.names ∨ .dollar ∈ nameSeparators false after)
  | _, _, _, .anything _, _, _ => by
    simp [nameSeparators, SomeNested, TypeExpr.names]
  | _, _, _, .bounded _ derived, _, stops => dollar_mem_arrayType derived stops
  | _, _, _, .unbounded _ derived, _, stops => dollar_mem_arrayType derived stops

theorem dollar_mem_arrayType : ∀ {level terminals type}, ArrayType level terminals type →
    ∀ {after}, StopsName after → (.dollar ∈ nameSeparators false (terminals ++ after) ↔
      SomeNested type.names ∨ .dollar ∈ nameSeparators false after)
  | _, _, _, .element derived, _, stops => dollar_mem_classType derived stops
  | _, _, _, @ArrayType.array _ _ _ dims derived positive, after, _ => by
    have stops : StopsName (bracketTerminals dims ++ after) := by
      cases dims with
      | zero => cases positive
      | succ dims => rfl
    rw [List.append_assoc, dollar_mem_classType derived stops, nameSeparators_brackets]
    rfl

theorem dollar_mem_classType : ∀ {level terminals type}, ClassType level terminals type →
    ∀ {after}, StopsName after → (.dollar ∈ nameSeparators false (terminals ++ after) ↔
      SomeNested type.names ∨ .dollar ∈ nameSeparators false after)
  | _, _, _, .plain, _, _ => dollar_mem_path
  | _, _, _, @ClassType.applied _ path simple args types levels _ _ listed derived, after, stops => by
    have opened : nameSeparators false (.openAngle :: (args ++ (levels ++ after))) =
        nameSeparators false (args ++ (levels ++ after)) := rfl
    have behind := @dollar_mem_inners _ _ _ _ derived after
    rw [TypeExpr.names, someNested_append, or_assoc] at behind
    rw [List.append_assoc, List.append_assoc, List.cons_append, dollar_mem_path, opened,
      dollar_mem_arguments listed, ← stops]
    exact behind

theorem dollar_mem_arguments : ∀ {level terminals types}, Arguments level terminals types →
    ∀ {after}, .dollar ∈ nameSeparators false (terminals ++ after) ↔
      SomeNested (TypeExpr.namesAll types) ∨ .dollar ∈ nameSeparators true after
  | _, _, _, .last derived, after => by
    have stops : StopsName (.closeAngle :: after) := rfl
    rw [List.append_assoc, TypeExpr.namesAll, TypeExpr.namesAll, List.append_nil]
    exact dollar_mem_reference derived stops
  | _, _, _, @Arguments.more _ _ _ rest _ derived listed, after => by
    have stops : StopsName (.comma :: (rest ++ after)) := rfl
    have later := @dollar_mem_arguments _ _ _ listed after
    rw [List.append_assoc, TypeExpr.namesAll, someNested_append, or_assoc, ← later]
    exact dollar_mem_reference derived stops

theorem dollar_mem_applied : ∀ {level head terminals type}, Applied level head terminals type →
    ∀ {after}, SomeNested head.names ∨ .dollar ∈ nameSeparators true (terminals ++ after) ↔
      SomeNested type.names ∨ .dollar ∈ nameSeparators true after
  | _, _, _, _, .plain, _ => Iff.rfl
  | _, _, _, _, .applied listed, after => by
    have inside := @dollar_mem_arguments _ _ _ listed after
    rw [TypeExpr.names, someNested_append, or_assoc, ← inside]
    rfl

/-- The separators before inner levels are not counted, whatever they are. -/
theorem dollar_mem_inners : ∀ {level outer terminals type}, Inners level outer terminals type →
    ∀ {after}, SomeNested outer.names ∨ .dollar ∈ nameSeparators true (terminals ++ after) ↔
      SomeNested type.names ∨ .dollar ∈ nameSeparators true after
  | _, _, _, _, .done, _ => Iff.rfl
  | _, outer, _, _, @Inners.next _ _ _ _ args _ rest _ _ applied derived, after => by
    rw [← dollar_mem_inners derived, ← dollar_mem_applied applied, List.append_assoc]
    rfl
end

end Grammar

end ShortNames
