import ShortNames.Proofs.GrammarSoundness

namespace ShortNames

theorem Token.kind_terminal (token : Token) : token.terminal.kind = token.kind := by
  unfold Token.terminal
  split <;> rename_i kind <;> rw [kind] <;> rfl

theorem Token.eq_of_terminal {token : Token} {terminal : Terminal} (same : token.terminal = terminal) :
    token = ⟨terminal.kind, token.text, token.offset⟩ := by
  rw [← same, kind_terminal]

theorem Token.eq_of_terminal_word {token : Token} {word : String} (same : token.terminal = .word word) :
    token = ⟨.identifier, word, token.offset⟩ := by
  have kind : token.kind = .identifier := by rw [← kind_terminal, same]; rfl
  have text : token.text = word := by simpa [Token.terminal, kind] using same
  rw [← kind, ← text]

namespace TypeExpr

open Grammar

/-- What comes next, if anything does, is of one of some kinds. -/
def FollowedBy (kinds : List Token.Kind) : List Token → Prop
  | [] => True
  | token :: _ => token.kind ∈ kinds

def afterReference : List Token.Kind := [.comma, .closeAngle]

def afterClassType : List Token.Kind := .openSquare :: afterReference

def afterArguments : List Token.Kind := .separator .dot :: .separator .dollar :: afterClassType

def afterName : List Token.Kind := .openAngle :: afterClassType

theorem FollowedBy.mono {fewer more : List Token.Kind} (included : fewer ⊆ more) {rest : List Token}
    (follow : FollowedBy fewer rest) : FollowedBy more rest := by
  cases rest with
  | nil => trivial
  | cons token rest => exact included follow

/-- A step takes all that spells an answer, as long as what follows may follow. -/
def Complete {α : Type} (step : Step α) (spells : List Terminal → α → Prop)
    (follows : List Token.Kind) : Prop :=
  ∀ ⦃used : List Token⦄ ⦃answer : α⦄ ⦃rest : List Token⦄, spells (used.map Token.terminal) answer →
    FollowedBy follows rest → step (used ++ rest) = .ok (answer, rest)

theorem identifier_complete (stop : Nat) {token : Token} {name : String}
    (spelled : token.terminal = .word name) (rest : List Token) :
    identifier stop (token :: rest) = .ok (name, rest) := by
  rw [Token.eq_of_terminal_word spelled]
  rfl

theorem qualifiers_last {token : Token} {rest : List Token} (follow : FollowedBy afterName rest) :
    qualifiers (token :: rest) = ([], token :: rest) := by
  unfold qualifiers
  split
  · rename_i text offset separator mark markOffset after same
    cases same
    simp [FollowedBy, afterName, afterClassType, afterReference] at follow
  · rfl

/-- The pieces before the last are taken with their separators, and the last is left. -/
theorem qualifiers_complete {path : List (String × Separator)} {simple : String} {used rest : List Token}
    (spelled : used.map Token.terminal = pathTerminals path simple) (follow : FollowedBy afterName rest) :
    ∃ last, qualifiers (used ++ rest) = (path, last :: rest) ∧ last.terminal = .word simple := by
  induction path generalizing used with
  | nil =>
    obtain ⟨last, rfl, atLast⟩ := List.map_eq_singleton_iff.mp spelled
    exact ⟨last, qualifiers_last follow, atLast⟩
  | cons piece path ih =>
    obtain ⟨word, afterWord, rfl, atWord, spelled⟩ := List.map_eq_cons_iff.mp spelled
    obtain ⟨mark, used, rfl, atMark, spelled⟩ := List.map_eq_cons_iff.mp spelled
    obtain ⟨last, taken, atLast⟩ := ih spelled
    refine ⟨last, ?_, atLast⟩
    rw [Token.eq_of_terminal_word atWord, Token.eq_of_terminal atMark]
    simp only [List.cons_append, Terminal.kind, qualifiers, taken]

theorem dimensions_complete :
    Complete dimensions (fun terminals dims => terminals = bracketTerminals dims) afterReference := by
  intro used dims rest spelled follow
  induction dims generalizing used with
  | zero =>
    have none : used = [] := List.map_eq_nil_iff.mp spelled
    subst none
    unfold dimensions
    cases rest with
    | nil => rfl
    | cons token rest =>
      obtain ⟨kind, text, offset⟩ := token
      simp only [FollowedBy, afterReference, List.mem_cons, List.not_mem_nil, or_false] at follow
      rcases follow with rfl | rfl <;> rfl
  | succ dims ih =>
    obtain ⟨first, afterFirst, rfl, atFirst, spelled⟩ := List.map_eq_cons_iff.mp spelled
    obtain ⟨second, used, rfl, atSecond, spelled⟩ := List.map_eq_cons_iff.mp spelled
    rw [Token.eq_of_terminal atFirst, Token.eq_of_terminal atSecond]
    simp only [List.cons_append, Terminal.kind, dimensions, ih spelled]
    rfl

theorem pathTerminals_head (path : List (String × Separator)) (simple : String) :
    ∃ word rest, pathTerminals path simple = .word word :: rest := by
  cases path with
  | nil => exact ⟨simple, [], rfl⟩
  | cons piece path => exact ⟨piece.1, _, rfl⟩

theorem classType_head {level : Nat} {terminals : List Terminal} {type : TypeExpr}
    (derived : ClassType level terminals type) : ∃ word rest, terminals = .word word :: rest := by
  cases derived with
  | plain => exact pathTerminals_head _ _
  | @applied _ path simple args types levels _ unprimitive arguments inners =>
    obtain ⟨word, rest, split⟩ := pathTerminals_head path simple
    exact ⟨word, rest ++ .openAngle :: args ++ levels, by rw [split]; rfl⟩

theorem arrayType_head {level : Nat} {terminals : List Terminal} {type : TypeExpr}
    (derived : ArrayType level terminals type) : ∃ word rest, terminals = .word word :: rest := by
  cases derived with
  | element derived => exact classType_head derived
  | array derived positive =>
    obtain ⟨word, rest, rfl⟩ := classType_head derived
    exact ⟨word, _, rfl⟩

/-- A reference starts with a question mark or with a word. -/
theorem reference_head {level : Nat} {terminals : List Terminal} {type : TypeExpr}
    (derived : Reference level terminals type) :
    ∃ first rest, terminals = first :: rest ∧ (first = .question ∨ ∃ word, first = .word word) := by
  cases derived with
  | anything below => exact ⟨_, _, rfl, .inl rfl⟩
  | bounded below limit => exact ⟨_, _, rfl, .inl rfl⟩
  | unbounded below derived =>
    obtain ⟨word, rest, split⟩ := arrayType_head derived
    exact ⟨_, _, split, .inr ⟨word, rfl⟩⟩

theorem token_of_reference {level : Nat} {used : List Token} {type : TypeExpr}
    (derived : Reference level (used.map Token.terminal) type) :
    ∃ token others, used = token :: others ∧ token.kind ≠ .closeAngle ∧ token.kind ≠ .comma := by
  obtain ⟨first, rest, split, start⟩ := reference_head derived
  obtain ⟨token, others, rfl, atToken, _⟩ := List.map_eq_cons_iff.mp split
  refine ⟨token, others, rfl, ?_⟩
  rw [← Token.kind_terminal, atToken]
  rcases start with rfl | ⟨word, rfl⟩ <;> exact ⟨nofun, nofun⟩

theorem arguments_last {reference : Step TypeExpr} {opened : UInt32} {count : Nat} {token close : Token}
    {tokens rest : List Token} {type : TypeExpr} (notClose : token.kind ≠ .closeAngle)
    (notComma : token.kind ≠ .comma) (atClose : close.terminal = .closeAngle)
    (read : reference (token :: tokens) = .ok (type, close :: rest)) :
    arguments reference opened (count + 1) (token :: tokens) = .ok ([type], rest) := by
  rw [Token.eq_of_terminal atClose] at read
  unfold arguments
  split
  · rename_i kind; exact absurd kind notClose
  · rename_i kind; exact absurd kind notComma
  · rw [read]
    rfl

theorem arguments_more {reference : Step TypeExpr} {opened : UInt32} {count : Nat} {token comma : Token}
    {tokens after rest : List Token} {type : TypeExpr} {types : List TypeExpr}
    (notClose : token.kind ≠ .closeAngle) (notComma : token.kind ≠ .comma)
    (atComma : comma.terminal = .comma)
    (read : reference (token :: tokens) = .ok (type, comma :: after))
    (others : arguments reference opened count after = .ok (types, rest)) :
    arguments reference opened (count + 1) (token :: tokens) = .ok (type :: types, rest) := by
  rw [Token.eq_of_terminal atComma] at read
  unfold arguments
  split
  · rename_i kind; exact absurd kind notClose
  · rename_i kind; exact absurd kind notComma
  · rw [read]
    change (arguments reference opened count after >>= _) = _
    rw [others]
    rfl

/-- Each argument takes a token at least, so the count of the tokens is never too small. -/
theorem arguments_complete {reference : Step TypeExpr} {level : Nat}
    (complete : Complete reference (Reference level) afterReference) (opened : UInt32) :
    ∀ {terminals types}, Arguments level terminals types → ∀ (used rest : List Token) (count : Nat),
      used.map Token.terminal = terminals → used.length ≤ count →
      arguments reference opened count (used ++ rest) = .ok (types, rest)
  | _, _, .last derived, used, rest, count => by
    intro spelled bound
    obtain ⟨inside, closing, rfl, rfl, spelledClose⟩ := List.map_eq_append_iff.mp spelled
    obtain ⟨close, rfl, atClose⟩ := List.map_eq_singleton_iff.mp spelledClose
    obtain ⟨token, others, rfl, notClose, notComma⟩ := token_of_reference derived
    have follow : FollowedBy afterReference (close :: rest) := by
      rw [Token.eq_of_terminal atClose]
      exact List.mem_cons_of_mem _ (List.mem_cons_self ..)
    obtain ⟨count, rfl⟩ : ∃ fewer, count = fewer + 1 := ⟨count - 1, by simp at bound; omega⟩
    have read := complete derived follow
    rw [List.append_assoc]
    exact arguments_last notClose notComma atClose read
  | _, _, .more derived listed, used, rest, count => by
    intro spelled bound
    obtain ⟨inside, tail, rfl, rfl, spelledTail⟩ := List.map_eq_append_iff.mp spelled
    obtain ⟨comma, more, rfl, atComma, spelledMore⟩ := List.map_eq_cons_iff.mp spelledTail
    obtain ⟨token, others, rfl, notClose, notComma⟩ := token_of_reference derived
    have follow : FollowedBy afterReference (comma :: (more ++ rest)) := by
      rw [Token.eq_of_terminal atComma]
      exact List.mem_cons_self ..
    obtain ⟨count, rfl⟩ : ∃ fewer, count = fewer + 1 := ⟨count - 1, by simp at bound; omega⟩
    have enough : more.length ≤ count := by simp at bound; omega
    have read := complete derived follow
    rw [List.append_assoc]
    exact arguments_more notClose notComma atComma read
      (arguments_complete complete opened listed more rest count spelledMore enough)

theorem argumentsOf_opened {reference : Step TypeExpr} {level : Nat}
    (complete : Complete reference (Reference level) afterReference) (head : TypeExpr)
    {args : List Terminal} {types : List TypeExpr} (derived : Arguments level args types)
    {opening : Token} {used : List Token} (atOpening : opening.terminal = .openAngle)
    (spelled : used.map Token.terminal = args) (rest : List Token) :
    argumentsOf reference head (opening :: (used ++ rest)) = .ok (.generic head types, rest) := by
  have enough : used.length ≤ (used ++ rest).length := by simp
  have read := arguments_complete complete opening.offset derived used rest _ spelled enough
  rw [Token.eq_of_terminal atOpening]
  change (arguments reference opening.offset (used ++ rest).length (used ++ rest) >>= _) = _
  rw [read]
  rfl

theorem argumentsOf_complete {reference : Step TypeExpr} {level : Nat}
    (complete : Complete reference (Reference level) afterReference) (head : TypeExpr) :
    Complete (argumentsOf reference head) (Applied level head) afterArguments := by
  intro used type rest spelled follow
  generalize terminals : used.map Token.terminal = spelling at spelled
  cases spelled with
  | plain =>
    have none : used = [] := List.map_eq_nil_iff.mp terminals
    subst none
    unfold argumentsOf
    split
    · rename_i same
      rw [List.nil_append] at same
      subst same
      simp [FollowedBy, afterArguments, afterClassType, afterReference] at follow
    · rfl
  | applied derived =>
    obtain ⟨opening, args, rfl, atOpening, spelledArgs⟩ := List.map_eq_cons_iff.mp terminals
    exact argumentsOf_opened complete head derived atOpening spelledArgs rest

theorem classType_complete (stop : Nat) {level : Nat} {reference : Step TypeExpr}
    {inners : TypeExpr → Step TypeExpr}
    (completeReference : Complete reference (Reference (level + 1)) afterReference)
    (completeInners : ∀ outer, Complete (inners outer) (Inners (level + 1) outer) afterClassType) :
    Complete (classType stop reference inners) (ClassType level) afterClassType := by
  intro used type rest spelled follow
  generalize terminals : used.map Token.terminal = spelling at spelled
  cases spelled with
  | @plain _ path simple =>
    obtain ⟨last, taken, atLast⟩ := qualifiers_complete terminals (follow.mono (List.subset_cons_self ..))
    unfold classType
    rw [taken]
    change (identifier stop (last :: rest) >>= _) = _
    rw [identifier_complete stop atLast]
    dsimp only [Bind.bind, Except.bind]
    split
    · simp [FollowedBy, afterClassType, afterReference] at follow
    · rfl
  | @applied _ path simple args types levels _ unprimitive derivedArgs derivedInners =>
    obtain ⟨front, usedInners, rfl, terminalsFront, rfl⟩ := List.map_eq_append_iff.mp terminals
    obtain ⟨usedPath, tail, rfl, spelledPath, terminalsTail⟩ := List.map_eq_append_iff.mp terminalsFront
    obtain ⟨opening, usedArgs, rfl, atOpening, spelledArgs⟩ := List.map_eq_cons_iff.mp terminalsTail
    have opened : FollowedBy afterName (opening :: (usedArgs ++ (usedInners ++ rest))) := by
      rw [Token.eq_of_terminal atOpening]
      exact List.mem_cons_self ..
    obtain ⟨last, taken, atLast⟩ := qualifiers_complete spelledPath opened
    have ordinary : (TypeName.ofPath path simple).primitive = false :=
      TypeName.primitive_ofPath_eq_false.mpr unprimitive
    have applied : argumentsOf reference (.named (.ofPath path simple))
        (opening :: (usedArgs ++ (usedInners ++ rest))) =
          .ok (.generic (.named (.ofPath path simple)) types, usedInners ++ rest) :=
      argumentsOf_opened completeReference _ derivedArgs atOpening spelledArgs _
    have split : usedPath ++ opening :: usedArgs ++ usedInners ++ rest =
        usedPath ++ opening :: (usedArgs ++ (usedInners ++ rest)) := by
      simp only [List.append_assoc, List.cons_append]
    rw [split]
    unfold classType
    rw [taken]
    change (identifier stop (last :: opening :: (usedArgs ++ (usedInners ++ rest))) >>= _) = _
    rw [identifier_complete stop atLast]
    rw [Token.eq_of_terminal atOpening] at applied ⊢
    change (if (TypeName.ofPath path simple).primitive = true then _ else argumentsOf reference _ _ >>= _) = _
    rw [ordinary]
    simp only [Bool.false_eq_true, if_false]
    rw [applied]
    exact completeInners _ derivedInners follow

theorem arrayType_complete {level : Nat} {element : Step TypeExpr}
    (complete : Complete element (ClassType level) afterClassType) :
    Complete (arrayType element) (ArrayType level) afterReference := by
  intro used type rest spelled follow
  generalize terminals : used.map Token.terminal = spelling at spelled
  cases spelled with
  | element derived =>
    have read := complete (terminals ▸ derived) (follow.mono (List.subset_cons_self ..))
    have none : dimensions ([] ++ rest) = .ok (0, rest) := dimensions_complete rfl follow
    rw [List.nil_append] at none
    unfold arrayType
    rw [read]
    change (dimensions rest >>= _) = _
    rw [none]
    rfl
  | @array _ _ inside dims derived positive =>
    obtain ⟨usedElement, usedDims, rfl, rfl, spelledDims⟩ := List.map_eq_append_iff.mp terminals
    have brackets := dimensions_complete spelledDims follow
    have opened : FollowedBy afterClassType (usedDims ++ rest) := by
      obtain ⟨fewer, rfl⟩ : ∃ fewer, dims = fewer + 1 := ⟨dims - 1, by omega⟩
      obtain ⟨opening, others, rfl, atOpening, _⟩ := List.map_eq_cons_iff.mp spelledDims
      rw [Token.eq_of_terminal atOpening]
      exact List.mem_cons_self ..
    have read := complete derived opened
    unfold arrayType
    rw [List.append_assoc, read]
    change (dimensions (usedDims ++ rest) >>= _) = _
    rw [brackets]
    change Except.ok (if dims = 0 then inside else .array inside dims, rest) = _
    rw [if_neg (by omega : dims ≠ 0)]

theorem wildcard_anything (limit : Step TypeExpr) {rest : List Token}
    (follow : FollowedBy afterReference rest) : wildcard limit rest = .ok (.anything, rest) := by
  cases rest with
  | nil => rfl
  | cons token rest =>
    obtain ⟨kind, text, offset⟩ := token
    simp only [FollowedBy, afterReference, List.mem_cons, List.not_mem_nil, or_false] at follow
    rcases follow with rfl | rfl <;> rfl

theorem wildcard_bounded {limit : Step TypeExpr} {keyword : Token} {bound : Bound}
    {tokens rest : List Token} {type : TypeExpr} (atKeyword : keyword.terminal = .bound bound)
    (read : limit tokens = .ok (type, rest)) :
    wildcard limit (keyword :: tokens) = .ok (.bounded bound type, rest) := by
  rw [Token.eq_of_terminal atKeyword]
  cases bound <;>
  · change (limit tokens >>= _) = _
    rw [read]
    rfl

/-- The inner levels leave nothing behind a head that its arguments could swallow. -/
theorem inners_follow {level : Nat} {outer type : TypeExpr} {used rest : List Token}
    (derived : Inners level outer (used.map Token.terminal) type)
    (follow : FollowedBy afterClassType rest) : FollowedBy afterArguments (used ++ rest) := by
  generalize terminals : used.map Token.terminal = spelling at derived
  cases derived with
  | done =>
    have none : used = [] := List.map_eq_nil_iff.mp terminals
    subst none
    exact follow.mono fun kind member => List.mem_cons_of_mem _ (List.mem_cons_of_mem _ member)
  | @next _ _ separator name args inner others _ within applied derived =>
    obtain ⟨mark, tail, rfl, atMark, _⟩ := List.map_eq_cons_iff.mp terminals
    rw [Token.eq_of_terminal atMark]
    cases separator with
    | dot => exact List.mem_cons_self ..
    | dollar => exact List.mem_cons_of_mem _ (List.mem_cons_self ..)

theorem inners_done {stop levels : Nat} {outer : TypeExpr} {rest : List Token}
    (follow : FollowedBy afterClassType rest) : inners stop levels outer rest = .ok (outer, rest) := by
  cases rest with
  | nil => cases levels <;> rfl
  | cons token rest =>
    obtain ⟨kind, text, offset⟩ := token
    simp only [FollowedBy, afterClassType, afterReference, List.mem_cons, List.not_mem_nil, or_false] at follow
    rcases follow with rfl | rfl | rfl <;> cases levels <;> rfl

theorem reference_below {level : Nat} {terminals : List Terminal} {type : TypeExpr}
    (derived : Reference level terminals type) : level < maxNesting := by
  cases derived <;> assumption

mutual
theorem reference_complete (stop : Nat) : ∀ (levels : Nat) {level : Nat}, levels + level = maxNesting →
    Complete (reference stop levels) (Reference level) afterReference
  | 0, level, budget => by
    intro used type rest spelled follow
    have below := reference_below spelled
    omega
  | levels + 1, level, budget => by
    have deeper : levels + (level + 1) = maxNesting := by omega
    have completeType := arrayType_complete (classType_complete stop (reference_complete stop levels deeper)
      (inners_complete stop levels deeper))
    intro used type rest spelled follow
    generalize terminals : used.map Token.terminal = spelling at spelled
    cases spelled with
    | anything below =>
      obtain ⟨question, rfl, atQuestion⟩ := List.map_eq_singleton_iff.mp terminals
      rw [Token.eq_of_terminal atQuestion]
      exact wildcard_anything _ follow
    | bounded below derived =>
      obtain ⟨question, tail, rfl, atQuestion, terminalsTail⟩ := List.map_eq_cons_iff.mp terminals
      obtain ⟨keyword, used, rfl, atKeyword, rfl⟩ := List.map_eq_cons_iff.mp terminalsTail
      rw [Token.eq_of_terminal atQuestion]
      exact wildcard_bounded atKeyword (completeType derived follow)
    | unbounded below derived =>
      subst terminals
      obtain ⟨word, others, split⟩ := arrayType_head derived
      obtain ⟨token, tail, rfl, atWord, _⟩ := List.map_eq_cons_iff.mp split
      have read := completeType derived follow
      rw [Token.eq_of_terminal_word atWord] at read ⊢
      exact read

theorem inners_complete (stop : Nat) : ∀ (levels : Nat) {level : Nat}, levels + level = maxNesting →
    ∀ outer, Complete (inners stop levels outer) (Inners level outer) afterClassType
  | 0, level, budget, outer => by
    intro used type rest spelled follow
    generalize terminals : used.map Token.terminal = spelling at spelled
    cases spelled with
    | done =>
      have none : used = [] := List.map_eq_nil_iff.mp terminals
      subst none
      exact inners_done follow
    | next within applied derived => omega
  | levels + 1, level, budget, outer => by
    have deeper : levels + (level + 1) = maxNesting := by omega
    intro used type rest spelled follow
    generalize terminals : used.map Token.terminal = spelling at spelled
    cases spelled with
    | done =>
      have none : used = [] := List.map_eq_nil_iff.mp terminals
      subst none
      exact inners_done follow
    | @next _ _ separator name args inner others _ within applied derived =>
      obtain ⟨front, usedRest, rfl, terminalsFront, rfl⟩ := List.map_eq_append_iff.mp terminals
      obtain ⟨mark, tail, rfl, atMark, terminalsTail⟩ := List.map_eq_cons_iff.mp terminalsFront
      obtain ⟨word, usedArgs, rfl, atWord, rfl⟩ := List.map_eq_cons_iff.mp terminalsTail
      have readArgs := argumentsOf_complete (reference_complete stop levels deeper) (.inner outer name)
        applied (inners_follow derived follow)
      have readRest := inners_complete stop levels deeper inner derived follow
      rw [Token.eq_of_terminal atMark, List.append_assoc]
      change (identifier stop (word :: (usedArgs ++ (usedRest ++ rest))) >>= _) = _
      rw [identifier_complete stop atWord]
      change (argumentsOf (reference stop levels) (.inner outer name) (usedArgs ++ (usedRest ++ rest)) >>= _) = _
      rw [readArgs]
      exact readRest
end

/-- Reading tokens gives a tree exactly if the grammar derives that tree from them. -/
theorem ofTokens_eq_ok_iff (stop : Nat) (tokens : List Token) (type : TypeExpr) :
    ofTokens stop tokens = .ok type ↔ Reference 0 (tokens.map Token.terminal) type := by
  constructor
  · intro run
    obtain ⟨⟨read, rest⟩, reading, run⟩ := bind_eq_ok run
    obtain ⟨used, split, spelled⟩ := reference_sound stop maxNesting (Nat.add_zero _) reading
    dsimp only at run
    split at run
    · cases run
      rwa [split, List.append_nil]
    · cases run
  · intro derived
    have read : reference stop maxNesting (tokens ++ []) = .ok (type, []) :=
      reference_complete stop maxNesting (Nat.add_zero _) derived trivial
    rw [List.append_nil] at read
    unfold ofTokens
    rw [read]
    rfl

end TypeExpr

end ShortNames
