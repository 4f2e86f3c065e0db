import ShortNames.Proofs.GrammarReading

namespace ShortNames

/-- There is a next token, and it is of one of some kinds. -/
def NextIs (kinds : List Token.Kind) : List Token → Prop
  | [] => False
  | token :: _ => token.kind ∈ kinds

/-- What a malformation of each kind may point at, given the tokens before that place and those from
there on. -/
def Malformation.PointsAt (cause : Malformation) (before after : List Token) : Prop :=
  match cause with
  | .empty => False
  | .unbalancedAngles => NextIs [.openAngle, .closeAngle] after
  | .unbalancedSquares => NextIs [.openSquare, .closeSquare] after
  | .invalidCharacter => NextIs [.invalid] after
  | .unexpectedToken => NextIs [.identifier, .separator .dot, .separator .dollar, .comma, .question,
      .extendsWord, .superWord] after
  | .missingIdentifier =>
      after = [] ∨ NextIs [.separator .dot, .separator .dollar, .comma, .closeAngle] after
  | .argumentsOnPrimitive => ∃ keyword bracket rest, after = keyword :: bracket :: rest ∧
      keyword.kind = .identifier ∧ isPrimitiveKeyword keyword.text = true ∧ bracket.kind = .openAngle
  | .wildcardBound => (∃ question, before.getLast? = some question ∧ question.kind = .question) ∧
      ∃ token rest, after = token :: rest ∧ token.kind ∉ [.extendsWord, .superWord, .comma, .closeAngle]
  | .nestingTooDeep => after ≠ []

theorem pointsAt_misplaced (token : Token) (before rest : List Token) :
    token.kind.misplaced.PointsAt before (token :: rest) := by
  cases kind : token.kind with
  | separator separator => cases separator <;> simp [Token.Kind.misplaced, Malformation.PointsAt, NextIs, kind]
  | _ => simp [Token.Kind.misplaced, Malformation.PointsAt, NextIs, kind]

namespace TypeExpr

/-- An offset says where the next token starts. The text ends at byte `stop`. -/
def NextAt (stop : Nat) (offset : UInt32) : List Token → Prop
  | [] => offset.toNat = stop
  | token :: _ => offset = token.offset

/-- A fault is at a token, or at the end of the text, that its cause may point at. All tokens before it
can be read. -/
def Culprit (stop : Nat) (tokens : List Token) (fault : Fault) : Prop :=
  ∃ before after, tokens = before ++ after ∧ NextAt stop fault.offset after ∧
    (∀ token ∈ before, token.kind ≠ .invalid) ∧ fault.cause.PointsAt before after

/-- The tokens left are at the end of all tokens, and those taken could be read. -/
def Reached (whole rest : List Token) : Prop :=
  ∃ taken, whole = taken ++ rest ∧ ∀ token ∈ taken, token.kind ≠ .invalid

/-- A step leaves tokens that can be reached, or names a culprit among all tokens. It has no answer only
if it comes to an end of the text that 32 bits cannot say. -/
def Reports {α : Type} (stop : Nat) (whole : List Token) : Except (Failure Fault) (α × List Token) → Prop
  | .ok (_, rest) => Reached whole rest
  | .error (.error fault) => Culprit stop whole fault
  | .error .overflow => UInt32.size ≤ stop ∧ Reached whole []

section Reports

variable {α β : Type} {stop : Nat} {whole : List Token}

theorem Reached.next {token : Token} {rest : List Token} (reached : Reached whole (token :: rest))
    (valid : token.kind ≠ .invalid) : Reached whole rest := by
  obtain ⟨taken, rfl, readable⟩ := reached
  refine ⟨taken ++ [token], by simp, fun other member => ?_⟩
  rcases List.mem_append.mp member with earlier | last
  · exact readable other earlier
  · rw [List.mem_singleton.mp last]
    exact valid

/-- What is reached may be named, if that is what the cause points at. -/
theorem Reached.culprit {rest : List Token} {offset : UInt32} {cause : Malformation} (reached : Reached whole rest)
    (place : NextAt stop offset rest) (points : ∀ taken, whole = taken ++ rest → cause.PointsAt taken rest) :
    Culprit stop whole ⟨offset, cause⟩ := by
  obtain ⟨taken, split, readable⟩ := reached
  exact ⟨taken, rest, split, place, readable, points taken split⟩

theorem Reached.refuse {rest : List Token} {cause : Malformation} (reached : Reached whole rest)
    (points : ∀ taken, whole = taken ++ rest → cause.PointsAt taken rest) :
    Reports (α := α) stop whole (refuse stop cause rest) := by
  cases rest with
  | nil =>
    simp only [TypeExpr.refuse]
    split
    · rename_i fits
      exact reached.culprit (UInt32.toNat_ofNat_of_lt' fits) points
    · rename_i long
      exact ⟨Nat.le_of_not_lt long, reached⟩
  | cons token rest => exact reached.culprit rfl points

theorem Reached.misplaced {token : Token} {rest : List Token} (reached : Reached whole (token :: rest)) :
    Culprit stop whole ⟨token.offset, token.kind.misplaced⟩ :=
  reached.culprit rfl fun taken _ => pointsAt_misplaced token taken rest

theorem reports_bind {first : Except (Failure Fault) (α × List Token)}
    {next : α × List Token → Except (Failure Fault) (β × List Token)} (reports : Reports stop whole first)
    (goesOn : ∀ value rest, first = .ok (value, rest) → Reached whole rest → Reports stop whole (next (value, rest))) :
    Reports stop whole (first >>= next) := by
  cases first with
  | error failure =>
    cases failure with
    | error fault => exact reports
    | overflow => exact reports
  | ok answer => exact goesOn answer.1 answer.2 rfl reports

theorem identifier_reports {tokens : List Token} (reached : Reached whole tokens) :
    Reports stop whole (identifier stop tokens) := by
  unfold identifier
  split
  · exact reached.refuse fun _ _ => .inl rfl
  · rename_i kind text offset rest
    split
    · exact reached.next (by simp)
    · rename_i separator
      cases separator <;> exact reached.culprit rfl fun _ _ => .inr (by simp [NextIs])
    · exact reached.culprit rfl fun _ _ => .inr (by simp [NextIs])
    · exact reached.misplaced

theorem reached_qualifiers {tokens : List Token} (reached : Reached whole tokens) :
    Reached whole (qualifiers tokens).2 := by
  fun_induction qualifiers tokens with
  | case1 text offset separator mark markOffset rest more after found ih =>
    rw [found] at ih
    exact ih ((reached.next (by simp)).next (by simp))
  | case2 tokens _ => exact reached

theorem qualifiers_eq_self {tokens : List Token} (none : (qualifiers tokens).1 = []) :
    (qualifiers tokens).2 = tokens := by
  unfold qualifiers at none ⊢
  split at none
  · cases none
  · rfl

theorem dimensions_reports {tokens : List Token} (reached : Reached whole tokens) :
    Reports stop whole (dimensions tokens) := by
  fun_induction dimensions tokens with
  | case1 first firstOffset second secondOffset tokens ih =>
    exact reports_bind (ih ((reached.next (by simp)).next (by simp))) fun _ _ _ after => after
  | case2 => exact reached.culprit rfl fun _ _ => by simp [Malformation.PointsAt, NextIs]
  | case3 => exact reached

/-- A name is primitive only if it is a single word. -/
theorem tokens_of_primitive {tokens rest : List Token} {simple : String}
    (named : identifier stop (qualifiers tokens).2 = .ok (simple, rest))
    (primitive : (TypeName.ofPath (qualifiers tokens).1 simple).primitive = true) :
    ∃ offset, tokens = ⟨.identifier, simple, offset⟩ :: rest ∧ isPrimitiveKeyword simple = true := by
  obtain ⟨single, keyword⟩ : (qualifiers tokens).1 = [] ∧ isPrimitiveKeyword simple = true := by
    simpa [TypeName.ofPath] using primitive
  rw [qualifiers_eq_self single] at named
  obtain ⟨used, split, spelled⟩ := identifier_sound stop named
  obtain ⟨token, rfl, word⟩ := List.map_eq_singleton_iff.mp spelled
  rw [Token.eq_of_terminal_word word] at split
  exact ⟨token.offset, split, keyword⟩

section Arguments

-- An argument is only read where there is a token, so that one can be named if no level is left for it.
variable {reference : Step TypeExpr}
  (reports : ∀ tokens, tokens ≠ [] → Reached whole tokens → Reports stop whole (reference tokens))

include reports

/-- An argument list names what stands where an argument should be, or the bracket that opened it. -/
theorem arguments_reports {opened : UInt32} (unclosed : Culprit stop whole ⟨opened, .unbalancedAngles⟩) (count : Nat)
    {tokens : List Token} (reached : Reached whole tokens) :
    Reports stop whole (arguments reference opened count tokens) := by
  induction count generalizing tokens with
  | zero =>
    unfold arguments
    exact unclosed
  | succ count ih =>
    cases tokens with
    | nil =>
      unfold arguments
      exact unclosed
    | cons token rest =>
      unfold arguments
      split
      · rename_i kind
        exact reached.culprit rfl fun _ _ => .inr (by simp [NextIs, kind])
      · rename_i kind
        exact reached.culprit rfl fun _ _ => .inr (by simp [NextIs, kind])
      · have argument := reports (token :: rest) (List.cons_ne_nil token rest) reached
        refine reports_bind argument fun arg after _ reachedAfter => ?_
        dsimp only
        split
        · exact unclosed
        · exact reachedAfter.next (by simp)
        · exact reports_bind (ih (reachedAfter.next (by simp))) fun _ _ _ done => done
        · exact reachedAfter.misplaced

theorem argumentsOf_reports (head : TypeExpr) {tokens : List Token} (reached : Reached whole tokens) :
    Reports stop whole (argumentsOf reference head tokens) := by
  unfold argumentsOf
  split
  · rename_i text opened rest
    have unclosed : Culprit stop whole ⟨opened, .unbalancedAngles⟩ :=
      reached.culprit rfl fun _ _ => by simp [Malformation.PointsAt, NextIs]
    exact reports_bind (arguments_reports reports unclosed _ (reached.next (by simp))) fun _ _ _ after => after
  · exact reached

theorem classType_reports {inners : TypeExpr → Step TypeExpr}
    (reportsInners : ∀ outer tokens, Reached whole tokens → Reports stop whole (inners outer tokens))
    (tokens : List Token) (reached : Reached whole tokens) :
    Reports stop whole (classType stop reference inners tokens) := by
  refine reports_bind (identifier_reports (reached_qualifiers reached)) fun simple rest named reachedRest => ?_
  dsimp only
  split
  · split
    · rename_i primitive
      obtain ⟨offset, rfl, keyword⟩ := tokens_of_primitive named primitive
      exact reached.refuse fun _ _ => ⟨_, _, _, rfl, rfl, keyword, rfl⟩
    · refine reports_bind (argumentsOf_reports reports _ reachedRest) fun type after _ reachedAfter => ?_
      exact reportsInners type after reachedAfter
  · exact reachedRest

end Arguments

theorem arrayType_reports {element : Step TypeExpr}
    (reports : ∀ tokens, Reached whole tokens → Reports stop whole (element tokens))
    (tokens : List Token) (reached : Reached whole tokens) : Reports stop whole (arrayType element tokens) := by
  refine reports_bind (reports tokens reached) fun type rest _ reachedRest => ?_
  exact reports_bind (dimensions_reports reachedRest) fun _ _ _ after => after

theorem wildcard_reports {limit : Step TypeExpr}
    (reports : ∀ tokens, Reached whole tokens → Reports stop whole (limit tokens))
    {question : Token} {rest : List Token} (isQuestion : question.kind = .question)
    (reached : Reached whole (question :: rest)) : Reports stop whole (wildcard limit rest) := by
  have behind : Reached whole rest := reached.next (by simp [isQuestion])
  unfold wildcard
  split
  · exact behind
  · rename_i token after
    split
    · rename_i kind
      exact reports_bind (reports after (behind.next (by simp [kind]))) fun _ _ _ done => done
    · rename_i kind
      exact reports_bind (reports after (behind.next (by simp [kind]))) fun _ _ _ done => done
    · exact behind
    · exact behind
    · rename_i notExtends notSuper notComma notClose
      have other : token.kind ∉ [.extendsWord, .superWord, .comma, .closeAngle] := by
        simpa using ⟨notExtends, notSuper, notComma, notClose⟩
      obtain ⟨earlier, entire, -⟩ := reached
      refine behind.culprit rfl fun taken split => ⟨⟨question, ?_, isQuestion⟩, token, after, rfl, other⟩
      have same : taken ++ token :: after = (earlier ++ [question]) ++ token :: after := by
        rw [← split, entire, List.append_assoc]
        rfl
      rw [List.append_cancel_right same, List.getLast?_concat]

end Reports

mutual
theorem reference_reports (stop : Nat) (whole : List Token) : ∀ (levels : Nat) (tokens : List Token),
    (levels = 0 → tokens ≠ []) → Reached whole tokens → Reports stop whole (reference stop levels tokens)
  | 0, tokens, present, reached => by
    unfold reference
    exact reached.refuse fun _ _ => present rfl
  | levels + 1, tokens, _, reached => by
    have reportsArgument := fun args nonempty => reference_reports stop whole levels args fun _ => nonempty
    have reportsType := arrayType_reports (classType_reports reportsArgument (inners_reports stop whole levels))
    unfold reference
    dsimp only
    split
    · exact wildcard_reports reportsType rfl reached
    · exact reportsType tokens reached

theorem inners_reports (stop : Nat) (whole : List Token) : ∀ (levels : Nat) (outer : TypeExpr) (tokens : List Token),
    Reached whole tokens → Reports stop whole (inners stop levels outer tokens)
  | 0, outer, tokens, reached => by
    unfold inners
    split
    · exact reached.culprit rfl fun _ _ => List.cons_ne_nil _ _
    · exact reached
  | levels + 1, outer, tokens, reached => by
    unfold inners
    split
    · refine reports_bind (identifier_reports (reached.next (by simp))) fun name rest _ reachedRest => ?_
      have reportsArgument := fun args nonempty => reference_reports stop whole levels args fun _ => nonempty
      refine reports_bind (argumentsOf_reports reportsArgument _ reachedRest) fun type after _ reachedAfter => ?_
      exact inners_reports stop whole levels type after reachedAfter
    · exact reached
end

end TypeExpr

end ShortNames
