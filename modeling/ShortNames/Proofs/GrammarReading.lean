import ShortNames.Proofs.GrammarCompleteness
import ShortNames.Proofs.Scanning

namespace ShortNames

/-- Some token that the grammar sees as a given terminal. -/
def Terminal.token (terminal : Terminal) : Token where
  kind := terminal.kind
  text := match terminal with
    | .word text => text
    | _ => ""
  offset := 0

theorem Terminal.terminal_token (terminal : Terminal) : terminal.token.terminal = terminal := by
  cases terminal with
  | bound bound => cases bound <;> rfl
  | _ => rfl

theorem eq_ok_of_toOption {ε α : Type} {outcome : Except ε α} {value : α}
    (same : outcome.toOption = some value) : outcome = .ok value := by
  cases outcome with
  | error error => cases same
  | ok found => exact congrArg Except.ok (Option.some.inj same)

/-- The error in an answer, if it is one. -/
def errorOf? {ε α : Type} : Except ε α → Option ε
  | .ok _ => none
  | .error error => some error

theorem errorOf?_eq_some_iff {ε α : Type} {answer : Except ε α} {error : ε} :
    errorOf? answer = some error ↔ answer = .error error := by
  cases answer <;> simp [errorOf?]

namespace TypeExpr

open Grammar

/-- A blank text spells no reference, so to refuse it first loses nothing. -/
theorem not_reference_of_blank {text : List Char} (blank : text.all isBlank = true) {level : Nat}
    {type : TypeExpr} : ¬ Reference level (Token.terminals text) type := by
  intro derived
  obtain ⟨first, rest, split, start⟩ := reference_head derived
  have unreadable := Token.terminals_of_blank (List.all_eq_true.mp blank) first
    (split ▸ List.mem_cons_self ..)
  rcases start with rfl | ⟨word, rfl⟩ <;> cases unreadable

theorem parse_eq_ok_iff (text : String) (type : TypeExpr) :
    parse text = .ok type ↔ Reference 0 (Token.terminals text.toList) type := by
  have exact := ofTokens_eq_ok_iff (Text.byteLength text.toList) (Token.scan text) type
  change _ ↔ Reference 0 (Token.terminals text.toList) type at exact
  unfold parse
  split
  · rename_i blank
    constructor
    · intro run
      cases run
    · intro derived
      exact absurd derived (not_reference_of_blank blank)
  · rw [← exact]
    cases ofTokens (Text.byteLength text.toList) (Token.scan text) with
    | error fault => exact ⟨nofun, nofun⟩
    | ok read => simp only [Except.ok.injEq]

theorem reference_unique {terminals : List Terminal} {first second : TypeExpr}
    (one : Reference 0 terminals first) (other : Reference 0 terminals second) : first = second := by
  have spelled : (terminals.map Terminal.token).map Token.terminal = terminals := by
    rw [List.map_map]
    exact List.map_id'' Terminal.terminal_token terminals
  rw [← spelled, ← ofTokens_eq_ok_iff 0] at one other
  rw [one] at other
  exact Except.ok.inj other

/-- A text is read as a tree exactly if the grammar derives that tree from its tokens, nesting
levels included. No sequence of tokens, of this text or any other, has two trees. -/
theorem parse_exactly_grammar (text : String) (type : TypeExpr) :
    (parse text = .ok type ↔ Reference 0 ((Token.scan text).map Token.terminal) type) ∧
      ∀ (terminals : List Terminal) (first second : TypeExpr),
        Reference 0 terminals first → Reference 0 terminals second → first = second :=
  ⟨parse_eq_ok_iff text type, fun _ _ _ => reference_unique⟩

/-- The pieces before the arguments are one name, the piece behind them is an inner level. -/
theorem parse_exactly_grammar_inner :
    let text := "a.Map<?, int[]>$Entry"
    let terminals : List Terminal := [.word "a", .separator .dot, .word "Map", .openAngle, .question, .comma,
      .word "int", .openSquare, .closeSquare, .closeAngle, .separator .dollar, .word "Entry"]
    let type : TypeExpr := .inner (.generic (.named (.ofPath [("a", .dot)] "Map"))
      [.anything, .array (.named (.ofPath [] "int")) 1]) "Entry"
    (Token.scan text).map Token.terminal = terminals ∧ parse text = .ok type ∧ Reference 0 terminals type ∧
      ∀ other, Reference 0 terminals other → other = type := by
  intro text terminals type
  have parsed : parse text = .ok type := eq_ok_of_toOption (by decide +kernel)
  have scanned : (Token.scan text).map Token.terminal = terminals := by decide +kernel
  obtain ⟨reads, unique⟩ := parse_exactly_grammar text type
  have derived := reads.mp parsed
  rw [scanned] at derived
  exact ⟨scanned, parsed, derived, fun other second => unique terminals other type second derived⟩

end TypeExpr

end ShortNames
