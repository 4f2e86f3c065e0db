import ShortNames.Proofs.Grammar

namespace ShortNames.TypeExpr

open Grammar

theorem bind_eq_ok {ε α β : Type} {first : Except ε α} {next : α → Except ε β} {answer : β}
    (run : first >>= next = .ok answer) : ∃ value, first = .ok value ∧ next value = .ok answer := by
  cases first with
  | error failure => cases run
  | ok value => exact ⟨value, rfl, run⟩

theorem refuse_ne_ok {α : Type} (stop : Nat) (cause : Malformation) (tokens : List Token) (answer : α) :
    refuse stop cause tokens ≠ .ok answer := by
  intro run
  cases tokens with
  | nil =>
    simp only [refuse] at run
    split at run <;> cases run
  | cons token tokens => cases run

/-- What a step takes from the front spells its answer, and the rest is left as it was. -/
def Sound {α : Type} (step : Step α) (spells : List Terminal → α → Prop) : Prop :=
  ∀ ⦃tokens : List Token⦄ ⦃answer : α⦄ ⦃rest : List Token⦄, step tokens = .ok (answer, rest) →
    ∃ used, tokens = used ++ rest ∧ spells (used.map Token.terminal) answer

theorem identifier_sound (stop : Nat) :
    Sound (identifier stop) fun terminals name => terminals = [.word name] := by
  intro tokens name rest run
  unfold identifier at run
  split at run
  · exact absurd run (refuse_ne_ok _ _ _ _)
  · rename_i kind text offset after
    split at run
    · cases run
      exact ⟨[⟨.identifier, name, offset⟩], rfl, rfl⟩
    · cases run
    · cases run
    · cases run

theorem qualifiers_sound (tokens : List Token) :
    ∃ used, tokens = used ++ (qualifiers tokens).2 ∧ used.map Token.terminal =
      (qualifiers tokens).1.flatMap fun piece => [.word piece.1, .separator piece.2] := by
  fun_induction qualifiers tokens with
  | case1 text offset separator mark markOffset rest more after found ih =>
    rw [found] at ih
    obtain ⟨used, split, spelled⟩ := ih
    refine ⟨⟨.identifier, text, offset⟩ :: ⟨.separator separator, mark, markOffset⟩ :: used, ?_, ?_⟩
    · rw [split]
      rfl
    · simp only [List.map_cons, spelled, List.flatMap_cons]
      rfl
  | case2 tokens _ => exact ⟨[], rfl, rfl⟩

theorem bracketTerminals_succ (dims : Nat) :
    bracketTerminals (dims + 1) = .openSquare :: .closeSquare :: bracketTerminals dims := rfl

theorem dimensions_sound :
    Sound dimensions fun terminals dims => terminals = bracketTerminals dims := by
  intro tokens dims rest run
  fun_induction dimensions tokens generalizing dims with
  | case1 first firstOffset second secondOffset tokens ih =>
    obtain ⟨⟨more, after⟩, inner, run⟩ := bind_eq_ok run
    cases run
    obtain ⟨used, rfl, spelled⟩ := ih inner
    refine ⟨⟨.openSquare, first, firstOffset⟩ :: ⟨.closeSquare, second, secondOffset⟩ :: used, rfl, ?_⟩
    simp only [List.map_cons, spelled, bracketTerminals_succ]
    rfl
  | case2 => cases run
  | case3 => cases run; exact ⟨[], rfl, rfl⟩

theorem arguments_sound {reference : Step TypeExpr} {level : Nat}
    (sound : Sound reference (Reference level)) (opened : UInt32) (count : Nat) :
    Sound (arguments reference opened count) (Arguments level) := by
  intro tokens types rest run
  induction count generalizing tokens types with
  | zero => unfold arguments at run; cases run
  | succ count ih =>
    cases tokens with
    | nil => unfold arguments at run; cases run
    | cons token tokens =>
      unfold arguments at run
      split at run
      · cases run
      · cases run
      · obtain ⟨⟨type, after⟩, first, run⟩ := bind_eq_ok run
        obtain ⟨used, split, spelled⟩ := sound first
        rw [split]
        dsimp only at run
        split at run
        · cases run
        · rename_i text offset after
          cases run
          refine ⟨used ++ [⟨.closeAngle, text, offset⟩], by simp, ?_⟩
          rw [List.map_append]
          exact .last spelled
        · rename_i text offset after
          obtain ⟨⟨others, left⟩, next, run⟩ := bind_eq_ok run
          cases run
          obtain ⟨usedNext, rfl, spelledNext⟩ := ih next
          refine ⟨used ++ ⟨.comma, text, offset⟩ :: usedNext, by simp, ?_⟩
          rw [List.map_append]
          exact .more spelled spelledNext
        · cases run

theorem argumentsOf_sound {reference : Step TypeExpr} {level : Nat}
    (sound : Sound reference (Reference level)) (head : TypeExpr) :
    Sound (argumentsOf reference head) (Applied level head) := by
  intro tokens type rest run
  unfold argumentsOf at run
  split at run
  · rename_i text opened tokens
    obtain ⟨⟨types, after⟩, args, run⟩ := bind_eq_ok run
    cases run
    obtain ⟨used, rfl, spelled⟩ := arguments_sound sound opened tokens.length args
    exact ⟨⟨.openAngle, text, opened⟩ :: used, rfl, .applied spelled⟩
  · cases run
    exact ⟨[], rfl, .plain⟩

theorem classType_sound (stop : Nat) {level : Nat} {reference : Step TypeExpr} {inners : TypeExpr → Step TypeExpr}
    (soundReference : Sound reference (Reference (level + 1)))
    (soundInners : ∀ outer, Sound (inners outer) (Inners (level + 1) outer)) :
    Sound (classType stop reference inners) (ClassType level) := by
  intro tokens type rest run
  obtain ⟨before, split, spelledBefore⟩ := qualifiers_sound tokens
  obtain ⟨⟨simple, afterName⟩, named, run⟩ := bind_eq_ok run
  obtain ⟨last, splitName, spelledLast⟩ := identifier_sound stop named
  have spelledPath : (before ++ last).map Token.terminal = pathTerminals (qualifiers tokens).1 simple := by
    rw [List.map_append, spelledBefore, spelledLast]
    rfl
  rw [splitName, ← List.append_assoc] at split
  dsimp only at run
  split at run
  · rename_i text opened afterOpen
    split at run
    · exact absurd run (refuse_ne_ok _ _ _ _)
    · rename_i ordinary
      obtain ⟨⟨applied, afterArgs⟩, opening, run⟩ := bind_eq_ok run
      obtain ⟨⟨types, afterClose⟩, args, closing⟩ := bind_eq_ok opening
      cases closing
      obtain ⟨usedArgs, splitArgs, spelledArgs⟩ := arguments_sound soundReference opened afterOpen.length args
      obtain ⟨usedInners, rfl, spelledInners⟩ := soundInners (.generic _ types) run
      have unprimitive : (qualifiers tokens).1 = [] → isPrimitiveKeyword simple = false :=
        TypeName.primitive_ofPath_eq_false.mp (Bool.eq_false_iff.mpr ordinary)
      refine ⟨before ++ last ++ ⟨.openAngle, text, opened⟩ :: usedArgs ++ usedInners, ?_, ?_⟩
      · rw [split, splitArgs]
        simp only [List.append_assoc, List.cons_append]
      · rw [List.map_append, List.map_append, spelledPath]
        exact .applied unprimitive spelledArgs spelledInners
  · cases run
    exact ⟨before ++ last, split, spelledPath ▸ .plain⟩

theorem arrayType_sound {level : Nat} {element : Step TypeExpr} (sound : Sound element (ClassType level)) :
    Sound (arrayType element) (ArrayType level) := by
  intro tokens type rest run
  obtain ⟨⟨inside, afterElement⟩, read, run⟩ := bind_eq_ok run
  obtain ⟨⟨dims, afterDims⟩, brackets, run⟩ := bind_eq_ok run
  cases run
  obtain ⟨used, rfl, spelled⟩ := sound read
  obtain ⟨usedDims, rfl, spelledDims⟩ := dimensions_sound brackets
  refine ⟨used ++ usedDims, by simp, ?_⟩
  rw [List.map_append, spelledDims]
  by_cases none : dims = 0
  · subst none
    simpa [bracketTerminals] using ArrayType.element spelled
  · rw [if_neg none]
    exact .array spelled (Nat.pos_of_ne_zero none)

theorem wildcard_sound {level : Nat} {limit : Step TypeExpr} (below : level < maxNesting)
    (sound : Sound limit (ArrayType level)) :
    Sound (wildcard limit) fun terminals => Reference level (.question :: terminals) := by
  intro tokens type rest run
  unfold wildcard at run
  split at run
  · cases run
    exact ⟨[], rfl, .anything below⟩
  · rename_i token tokens
    split at run
    · rename_i kind
      obtain ⟨⟨inside, after⟩, read, run⟩ := bind_eq_ok run
      cases run
      obtain ⟨used, rfl, spelled⟩ := sound read
      refine ⟨token :: used, rfl, ?_⟩
      have keyword : token.terminal = .bound .upper := by simp only [Token.terminal, kind]
      rw [List.map_cons, keyword]
      exact .bounded below spelled
    · rename_i kind
      obtain ⟨⟨inside, after⟩, read, run⟩ := bind_eq_ok run
      cases run
      obtain ⟨used, rfl, spelled⟩ := sound read
      refine ⟨token :: used, rfl, ?_⟩
      have keyword : token.terminal = .bound .lower := by simp only [Token.terminal, kind]
      rw [List.map_cons, keyword]
      exact .bounded below spelled
    · cases run
      exact ⟨[], rfl, .anything below⟩
    · cases run
      exact ⟨[], rfl, .anything below⟩
    · cases run

mutual
theorem reference_sound (stop : Nat) : ∀ (levels : Nat) {level : Nat}, levels + level = maxNesting →
    Sound (reference stop levels) (Reference level)
  | 0, _, _ => by
    intro tokens type rest run
    unfold reference at run
    exact absurd run (refuse_ne_ok _ _ _ _)
  | levels + 1, level, budget => by
    have below : level < maxNesting := by omega
    have deeper : levels + (level + 1) = maxNesting := by omega
    have soundType := arrayType_sound (classType_sound stop (reference_sound stop levels deeper)
      (inners_sound stop levels deeper))
    intro tokens type rest run
    unfold reference at run
    dsimp only at run
    split at run
    · rename_i text offset tokens
      obtain ⟨used, rfl, spelled⟩ := wildcard_sound below soundType run
      exact ⟨⟨.question, text, offset⟩ :: used, rfl, spelled⟩
    · obtain ⟨used, split, spelled⟩ := soundType run
      exact ⟨used, split, .unbounded below spelled⟩

theorem inners_sound (stop : Nat) : ∀ (levels : Nat) {level : Nat}, levels + level = maxNesting →
    ∀ outer, Sound (inners stop levels outer) (Inners level outer)
  | 0, _, _, outer => by
    intro tokens type rest run
    unfold inners at run
    split at run
    · cases run
    · cases run
      exact ⟨[], rfl, .done⟩
  | levels + 1, level, budget, outer => by
    have within : level + 1 ≤ maxNesting := by omega
    have deeper : levels + (level + 1) = maxNesting := by omega
    intro tokens type rest run
    unfold inners at run
    split at run
    · rename_i separator text offset tokens
      obtain ⟨⟨name, afterName⟩, named, runArgs⟩ := bind_eq_ok run
      obtain ⟨⟨inner, afterArgs⟩, args, runRest⟩ := bind_eq_ok runArgs
      obtain ⟨usedName, rfl, spelledName⟩ := identifier_sound stop named
      obtain ⟨usedArgs, rfl, spelledArgs⟩ := argumentsOf_sound (reference_sound stop levels deeper) _ args
      obtain ⟨usedRest, rfl, spelledRest⟩ := inners_sound stop levels deeper inner runRest
      refine ⟨⟨.separator separator, text, offset⟩ :: (usedName ++ usedArgs ++ usedRest), by simp, ?_⟩
      rw [List.map_cons, List.map_append, List.map_append, spelledName]
      exact .next within spelledArgs spelledRest
    · cases run
      exact ⟨[], rfl, .done⟩
end

end ShortNames.TypeExpr
