import ShortNames.Proofs.GrammarReading
import ShortNames.Proofs.Rescanning

namespace ShortNames

namespace TypeName

/-- The name as it is read when only dots are written in it. -/
def inDots (name : TypeName) : TypeName :=
  ofPath (name.enclosing.map (·, .dot)) name.simple

/-- The name as it is read when only its simple name is written. -/
def bare (name : TypeName) : TypeName :=
  ofPath [] name.simple

/-- What becomes of a name when some names are written in full and all others are not. -/
def respell (inFull : TypeName → Bool) (name : TypeName) : TypeName :=
  if inFull name then name.inDots else name.bare

theorem qualified_inDots (name : TypeName) : name.inDots.qualified = name.qualified := by
  rw [qualified, inDots, enclosing_ofPath, List.map_map]
  simp [Function.comp_def, qualified, ofPath]

theorem qualified_bare (name : TypeName) : name.bare.qualified = name.simple :=
  qualified_of_not_isQualified rfl

theorem qualified_respell (inFull : TypeName → Bool) (name : TypeName) :
    (name.respell inFull).qualified = if inFull name then name.qualified else name.simple := by
  unfold respell
  split
  · exact name.qualified_inDots
  · exact name.qualified_bare

end TypeName

namespace TypeExpr

open Grammar

mutual
/-- A reference of the same shape with other names. -/
def mapNames (change : TypeName → TypeName) : TypeExpr → TypeExpr
  | .named name => .named (change name)
  | .generic head args => .generic (head.mapNames change) (mapNamesAll change args)
  | .inner outer name => .inner (outer.mapNames change) name
  | .array element dims => .array (element.mapNames change) dims
  | .anything => .anything
  | .bounded bound limit => .bounded bound (limit.mapNames change)

def mapNamesAll (change : TypeName → TypeName) : List TypeExpr → List TypeExpr
  | [] => []
  | type :: rest => type.mapNames change :: mapNamesAll change rest
end

mutual
/-- Names may be changed before a reference is written instead of while it is written. -/
theorem renderWith_mapNames {spell direct : TypeName → String} {change : TypeName → TypeName} :
    (type : TypeExpr) → (∀ name ∈ type.names, spell (change name) = direct name) →
      (type.mapNames change).renderWith spell = type.renderWith direct
  | .named name, same => same name (List.mem_cons_self ..)
  | .generic head args, same => by
    simp only [names, List.mem_append] at same
    have headText := renderWith_mapNames head fun name member => same name (.inl member)
    have argTexts := renderAllWith_mapNames args fun name member => same name (.inr member)
    rw [mapNames, renderWith, headText, argTexts]
    rfl
  | .inner outer name, same => congrArg (writeInner · name) (renderWith_mapNames outer same)
  | .array element dims, same => congrArg (writeArray · dims) (renderWith_mapNames element same)
  | .anything, _ => rfl
  | .bounded bound limit, same => congrArg (writeBounded bound) (renderWith_mapNames limit same)

theorem renderAllWith_mapNames {spell direct : TypeName → String} {change : TypeName → TypeName} :
    (types : List TypeExpr) → (∀ name ∈ namesAll types, spell (change name) = direct name) →
      renderAllWith spell (mapNamesAll change types) = renderAllWith direct types
  | [], _ => rfl
  | type :: rest, same => by
    simp only [namesAll, List.mem_append] at same
    have firstText := renderWith_mapNames type fun name member => same name (.inl member)
    have restTexts := renderAllWith_mapNames rest fun name member => same name (.inr member)
    rw [mapNamesAll, renderAllWith, firstText, restTexts]
    rfl
end

/-- A change of names after which a reference can still be read: a name keeps its simple name and
has no pieces that it did not have, and none becomes primitive. -/
structure Readable (change : TypeName → TypeName) : Prop where
  dotted : ∀ name, ∃ pieces : List String, pieces ⊆ name.enclosing ∧
    change name = .ofPath (pieces.map (·, .dot)) name.simple
  ordinary : ∀ path simple, (TypeName.ofPath path simple).primitive = false →
    (change (.ofPath path simple)).primitive = false

mutual
theorem word_mem_of_mapNames {change : TypeName → TypeName} (readable : Readable change) {word : String} :
    (type : TypeExpr) → .word word ∈ (type.mapNames change).terminals → .word word ∈ type.terminals
  | .named name, member => by
    obtain ⟨pieces, fewer, changed⟩ := readable.dotted name
    rw [mapNames, terminals, changed, word_mem_pathTerminals] at member
    rw [terminals, word_mem_pathTerminals]
    simp only [TypeName.enclosing_ofPath, List.map_map, List.mem_map, Function.comp_apply,
      exists_eq_right] at member ⊢
    exact member.imp (fun inPieces => fewer inPieces) id
  | .generic head args, member => by
    simp only [mapNames, terminals, List.mem_append, List.mem_cons, reduceCtorEq, false_or] at member ⊢
    exact member.imp (word_mem_of_mapNames readable head) (word_mem_of_mapNamesAll readable args)
  | .inner outer name, member => by
    simp only [mapNames, terminals, List.mem_append] at member ⊢
    exact member.imp_left (word_mem_of_mapNames readable outer)
  | .array element dims, member => by
    simp only [mapNames, terminals, List.mem_append] at member ⊢
    exact member.imp_left (word_mem_of_mapNames readable element)
  | .anything, member => member
  | .bounded bound limit, member => by
    simp only [mapNames, terminals, List.mem_cons, reduceCtorEq, false_or] at member ⊢
    exact word_mem_of_mapNames readable limit member

theorem word_mem_of_mapNamesAll {change : TypeName → TypeName} (readable : Readable change) {word : String} :
    (types : List TypeExpr) → .word word ∈ terminalsAll (mapNamesAll change types) →
      .word word ∈ terminalsAll types
  | [], member => member
  | [type], member => by
    simp only [mapNamesAll, terminalsAll, List.mem_append] at member ⊢
    exact member.imp_left (word_mem_of_mapNames readable type)
  | type :: next :: rest, member => by
    simp only [mapNamesAll, terminalsAll, List.mem_append, List.mem_cons, reduceCtorEq, false_or] at member ⊢
    exact member.imp (word_mem_of_mapNames readable type) (word_mem_of_mapNamesAll readable (next :: rest))
end

theorem dollar_not_mem_pathTerminals (pieces : List String) (simple : String) :
    .separator .dollar ∉ pathTerminals (pieces.map (·, .dot)) simple := by
  simp [pathTerminals]

mutual
/-- After a readable change of names a derived tree can be derived again, at the same level and now
with dots alone. -/
theorem reference_mapNames {change : TypeName → TypeName} (readable : Readable change) :
    ∀ {level terminals type}, Reference level terminals type →
      ∃ written, Reference level written (type.mapNames change) ∧ .separator .dollar ∉ written
  | _, _, _, .anything low => ⟨_, .anything low, by simp⟩
  | _, _, _, .bounded low derived => by
    obtain ⟨written, again, dots⟩ := arrayType_mapNames readable derived
    exact ⟨_, .bounded low again, by simp [dots]⟩
  | _, _, _, .unbounded low derived => by
    obtain ⟨written, again, dots⟩ := arrayType_mapNames readable derived
    exact ⟨written, .unbounded low again, dots⟩

theorem arrayType_mapNames {change : TypeName → TypeName} (readable : Readable change) :
    ∀ {level terminals type}, ArrayType level terminals type →
      ∃ written, ArrayType level written (type.mapNames change) ∧ .separator .dollar ∉ written
  | _, _, _, .element derived => by
    obtain ⟨written, again, dots⟩ := classType_mapNames readable derived
    exact ⟨written, .element again, dots⟩
  | _, _, _, .array derived positive => by
    obtain ⟨written, again, dots⟩ := classType_mapNames readable derived
    exact ⟨_, .array again positive, by simp [dots, bracketTerminals]⟩

theorem classType_mapNames {change : TypeName → TypeName} (readable : Readable change) :
    ∀ {level terminals type}, ClassType level terminals type →
      ∃ written, ClassType level written (type.mapNames change) ∧ .separator .dollar ∉ written
  | _, _, _, @ClassType.plain _ path simple => by
    obtain ⟨pieces, -, changed⟩ := readable.dotted (.ofPath path simple)
    refine ⟨pathTerminals (pieces.map (·, .dot)) simple, ?_, dollar_not_mem_pathTerminals pieces simple⟩
    rw [mapNames, changed]
    exact .plain
  | _, _, _, @ClassType.applied _ path simple _ _ _ _ ordinary listed derived => by
    obtain ⟨args, argsAgain, argsDots⟩ := arguments_mapNames readable listed
    obtain ⟨levels, levelsAgain, levelsDots⟩ := inners_mapNames readable derived
    obtain ⟨pieces, -, changed⟩ := readable.dotted (.ofPath path simple)
    -- A head that was no primitive type is none now, so it may still have arguments.
    have stays : pieces.map (·, Separator.dot) = [] → isPrimitiveKeyword simple = false := by
      have before := TypeName.primitive_ofPath_eq_false.mpr ordinary
      have after := readable.ordinary path simple before
      rw [changed] at after
      exact TypeName.primitive_ofPath_eq_false.mp after
    rw [mapNames, mapNames, changed] at levelsAgain
    refine ⟨_, .applied stays argsAgain levelsAgain, ?_⟩
    simp [dollar_not_mem_pathTerminals, argsDots, levelsDots]

theorem arguments_mapNames {change : TypeName → TypeName} (readable : Readable change) :
    ∀ {level terminals types}, Arguments level terminals types →
      ∃ written, Arguments level written (mapNamesAll change types) ∧ .separator .dollar ∉ written
  | _, _, _, .last derived => by
    obtain ⟨written, again, dots⟩ := reference_mapNames readable derived
    exact ⟨_, .last again, by simp [dots]⟩
  | _, _, _, .more derived listed => by
    obtain ⟨written, again, dots⟩ := reference_mapNames readable derived
    obtain ⟨rest, restAgain, restDots⟩ := arguments_mapNames readable listed
    exact ⟨_, .more again restAgain, by simp [dots, restDots]⟩

theorem applied_mapNames {change : TypeName → TypeName} (readable : Readable change) :
    ∀ {level head terminals type}, Applied level head terminals type →
      ∃ written, Applied level (head.mapNames change) written (type.mapNames change) ∧
        .separator .dollar ∉ written
  | _, _, _, _, .plain => ⟨[], .plain, by simp⟩
  | _, _, _, _, .applied listed => by
    obtain ⟨written, again, dots⟩ := arguments_mapNames readable listed
    exact ⟨_, .applied again, by simp [dots]⟩

theorem inners_mapNames {change : TypeName → TypeName} (readable : Readable change) :
    ∀ {level outer terminals type}, Inners level outer terminals type →
      ∃ written, Inners level (outer.mapNames change) written (type.mapNames change) ∧
        .separator .dollar ∉ written
  | _, _, _, _, .done => ⟨[], .done, by simp⟩
  | _, _, _, _, .next low applied derived => by
    obtain ⟨args, argsAgain, argsDots⟩ := applied_mapNames readable applied
    obtain ⟨rest, restAgain, restDots⟩ := inners_mapNames readable derived
    refine ⟨_, @Inners.next _ _ .dot _ _ _ _ _ low argsAgain restAgain, ?_⟩
    simp [argsDots, restDots]
end

theorem map_inDots_of_not_mem {terminals : List Terminal} (dots : .separator .dollar ∉ terminals) :
    terminals.map Terminal.inDots = terminals := by
  refine (List.map_congr_left fun terminal member => ?_).trans (List.map_id terminals)
  match terminal with
  | .separator .dollar => exact absurd member dots
  | .separator .dot => rfl
  | .word _ | .comma | .openAngle | .closeAngle | .openSquare | .closeSquare | .question | .bound _
  | .invalid => rfl

theorem terminals_of_parse {text : String} {type : TypeExpr} (parsed : parse text = .ok type) :
    type.terminals = (Token.terminals text.toList).map Terminal.inDots :=
  terminals_of_reference ((parse_eq_ok_iff text type).mp parsed)

theorem readable_of_parse {text : String} {type : TypeExpr} (parsed : parse text = .ok type) :
    .invalid ∉ Token.terminals text.toList := by
  intro found
  have kept : Terminal.inDots .invalid ∈ type.terminals :=
    terminals_of_parse parsed ▸ List.mem_map_of_mem found
  exact invalid_not_mem_terminals type kept

theorem isPlainWord_of_parse {text : String} {type : TypeExpr} (parsed : parse text = .ok type)
    {word : String} (member : .word word ∈ type.terminals) : isPlainWord word = true := by
  rw [terminals_of_parse parsed] at member
  obtain ⟨terminal, found, same⟩ := List.mem_map.mp member
  rw [Terminal.inDots_eq_word same] at found
  exact Token.isPlainWord_of_mem (readable_of_parse parsed) found

/-- What the grammar derives from plain words and dots alone is read back from its own text. -/
theorem parse_render_of_reference {terminals : List Terminal} {type : TypeExpr}
    (derived : Reference 0 terminals type) (dots : .separator .dollar ∉ terminals)
    (plain : ∀ word, .word word ∈ terminals → isPlainWord word = true) : parse type.render = .ok type := by
  have spelled : type.terminals = terminals := (terminals_of_reference derived).trans (map_inDots_of_not_mem dots)
  rw [parse_eq_ok_iff, terminals_render_whole (spelled ▸ plain), spelled]
  exact derived

/-- What was read from a text and then had its names changed is read back from its own text. -/
theorem parse_render_mapNames {change : TypeName → TypeName} (readable : Readable change)
    {text : String} {type : TypeExpr} (parsed : parse text = .ok type) :
    parse (type.mapNames change).render = .ok (type.mapNames change) := by
  obtain ⟨written, again, dots⟩ := reference_mapNames readable ((parse_eq_ok_iff text type).mp parsed)
  have spelled : (type.mapNames change).terminals = written :=
    (terminals_of_reference again).trans (map_inDots_of_not_mem dots)
  refine parse_render_of_reference again dots fun word member => ?_
  rw [← spelled] at member
  exact isPlainWord_of_parse parsed (word_mem_of_mapNames readable type member)

end TypeExpr

end ShortNames
