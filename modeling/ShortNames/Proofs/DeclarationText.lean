import Mathlib.Data.List.Basic
import ShortNames.Declaration
import ShortNames.Proofs.NamePieces

namespace ShortNames

namespace Text

theorem afterWord?_append {c : Char} (word rest : List Char) (blank : isBlank c = true) :
    afterWord? word (word ++ c :: rest) = some (c :: rest) := by
  have found : word.isPrefixOf? (word ++ c :: rest) = some (c :: rest) :=
    List.isPrefixOf?_eq_some_iff_append_eq.mpr rfl
  simp only [afterWord?, found, blank, if_true]

/-- A text without blanks has no word before a blank. -/
theorem afterWord?_eq_none {word text : List Char} (solid : ∀ c ∈ text, isBlank c = false) :
    afterWord? word text = none := by
  unfold afterWord?
  split
  · rename_i c rest found
    have member : c ∈ text := by
      rw [← List.isPrefixOf?_eq_some_iff_append_eq.mp found]
      simp
    rw [solid c member]
    rfl
  · rfl

end Text

namespace Declaration

/-- The name in a declaration, with the mark for imports on demand. -/
def markedName (declaration : Declaration) : List Char :=
  declaration.name.toList ++ if declaration.onDemand then ".*".toList else []

/-- What a declaration has between its keyword and its semicolon. -/
def body (declaration : Declaration) : List Char :=
  (if declaration.isStatic then "static".toList ++ [' '] else []) ++ declaration.markedName

theorem toList_render (declaration : Declaration) :
    declaration.render.toList = "import".toList ++ ' ' :: (declaration.body ++ [';']) := by
  unfold render body markedName
  simp only [String.toList_append, apply_ite String.toList, List.append_assoc]
  split <;> split <;> rfl

theorem splitStatic_append {text : List Char} (solid : ∀ c ∈ text, isBlank c = false) :
    splitStatic ("static".toList ++ ' ' :: text) = (true, text) := by
  have front : Text.trimStart text = text :=
    Text.trimStart_eq_self fun c found => solid c (List.mem_of_head? found)
  have skipped : Text.trimStart (' ' :: text) = Text.trimStart text := rfl
  rw [splitStatic, Text.afterWord?_append _ _ (by decide)]
  simp only [skipped, front]

/-- A name that begins like the keyword for static imports is not mistaken for it. -/
theorem splitStatic_eq_self {text : List Char} (solid : ∀ c ∈ text, isBlank c = false) :
    splitStatic text = (false, text) := by
  rw [splitStatic, Text.afterWord?_eq_none solid]

theorem splitOnDemand_append (text : List Char) : splitOnDemand (text ++ ".*".toList) = (true, text) := by
  have found : ".*".toList.isSuffixOf? (text ++ ".*".toList) = some text :=
    List.isSuffixOf?_eq_some_iff_append_eq.mpr rfl
  rw [splitOnDemand, found]

theorem splitOnDemand_eq_self {text : List Char} (unmarked : '*' ∉ text) :
    splitOnDemand text = (false, text) := by
  unfold splitOnDemand
  split
  · rename_i rest found
    rw [← List.isSuffixOf?_eq_some_iff_append_eq.mp found] at unmarked
    exact absurd (List.mem_append_right rest (by decide)) unmarked
  · rfl

section Rendered

variable {declaration : Declaration} {outer : List String} {simple : String}

theorem not_mem_name {c : Char} (spelled : IsDotted (outer ++ [simple]) declaration.name)
    (foreign : isIdentifierPart c = false) (other : c ≠ '.') : c ∉ declaration.name.toList := by
  intro member
  rw [spelled.1] at member
  rcases char_of_mem_dotted spelled.2 member with part | dot
  · rw [foreign] at part
    cases part
  · exact other dot

/-- What else than the characters of names a declaration holds. -/
theorem not_mem_render {c : Char} (spelled : IsDotted (outer ++ [simple]) declaration.name)
    (foreign : isIdentifierPart c = false) (other : c ∉ "import static .*;".toList) :
    c ∉ declaration.render.toList := by
  have apart : c ∉ declaration.name.toList :=
    not_mem_name spelled foreign fun dot => other (dot ▸ by decide)
  simp only [String.reduceToList, List.mem_cons, not_or] at other
  rw [toList_render, body, markedName]
  cases declaration.isStatic <;> cases declaration.onDemand <;> simp [apart, other]

theorem solid_markedName (spelled : IsDotted (outer ++ [simple]) declaration.name) :
    ∀ c ∈ declaration.markedName, isBlank c = false := by
  intro c member
  rcases List.mem_append.mp member with inName | inMark
  · rw [spelled.1] at inName
    exact isBlank_eq_false_of_mem_dotted spelled.2 inName
  · split at inMark
    · have mark : c = '.' ∨ c = '*' := by simpa using inMark
      rcases mark with rfl | rfl <;> decide
    · cases inMark

theorem splitStatic_body (spelled : IsDotted (outer ++ [simple]) declaration.name) :
    splitStatic declaration.body = (declaration.isStatic, declaration.markedName) := by
  unfold body
  cases declaration.isStatic with
  | false => exact splitStatic_eq_self (solid_markedName spelled)
  | true => exact splitStatic_append (solid_markedName spelled)

theorem splitOnDemand_markedName (spelled : IsDotted (outer ++ [simple]) declaration.name) :
    splitOnDemand declaration.markedName = (declaration.onDemand, declaration.name.toList) := by
  unfold markedName
  cases declaration.onDemand with
  | false =>
    rw [if_neg Bool.false_ne_true, List.append_nil]
    exact splitOnDemand_eq_self (not_mem_name spelled (by decide +kernel) (by decide))
  | true => exact splitOnDemand_append _

theorem parseBody_body (spelled : IsDotted (outer ++ [simple]) declaration.name)
    (long : declaration.onDemand = false → outer ≠ []) : parseBody declaration.body = .ok declaration := by
  obtain ⟨name, read, full, -, qualified⟩ := spelled.parse
  have allowed : (declaration.onDemand || name.isQualified) = true := by
    cases onDemand : declaration.onDemand with
    | false => exact (qualified (long onDemand)).1
    | true => rfl
  unfold parseBody
  simp only [splitStatic_body spelled, splitOnDemand_markedName spelled, String.ofList_toList, read, allowed,
    if_true, full]

theorem solid_head_body (spelled : IsDotted (outer ++ [simple]) declaration.name) {c : Char}
    (front : declaration.body.head? = some c) : isBlank c = false := by
  unfold body at front
  split at front
  · cases front
    decide
  · exact solid_markedName spelled c (List.mem_of_head? front)

theorem solid_last_body (spelled : IsDotted (outer ++ [simple]) declaration.name) {c : Char}
    (back : declaration.body.getLast? = some c) : isBlank c = false := by
  have nonempty : declaration.markedName ≠ [] := by
    rw [markedName, spelled.1]
    exact List.append_ne_nil_of_left_ne_nil (TypeName.dotted_ne_nil spelled.2) _
  rw [body, List.getLast?_append_of_ne_nil _ nonempty] at back
  exact solid_markedName spelled c (List.mem_of_getLast? back)

/-- A declaration is read back from its text, whatever keyword its name begins with. -/
theorem parse_render (spelled : IsDotted (outer ++ [simple]) declaration.name)
    (long : declaration.onDemand = false → outer ≠ []) : parse declaration.render = .ok declaration := by
  have text := declaration.toList_render
  have trimmed : Text.trim declaration.render.toList = declaration.render.toList := by
    refine Text.trim_eq_self (fun c front => ?_) (fun c back => ?_)
    · rw [text] at front
      cases front
      decide
    · rw [text, ← List.cons_append, ← List.append_assoc, List.getLast?_concat] at back
      cases back
      decide
  have front : Text.trimStart (' ' :: (declaration.body ++ [';'])) = declaration.body ++ [';'] := by
    change Text.trimStart (declaration.body ++ [';']) = _
    refine Text.trimStart_eq_self fun c front => ?_
    cases first : declaration.body.head? with
    | none =>
      rw [List.head?_append, first] at front
      cases front
      decide
    | some d =>
      rw [List.head?_append, first] at front
      cases front
      exact solid_head_body spelled first
  have ended : [';'].isSuffixOf? (declaration.body ++ [';']) = some declaration.body :=
    List.isSuffixOf?_eq_some_iff_append_eq.mpr rfl
  have back : Text.trimEnd declaration.body = declaration.body :=
    Text.trimEnd_eq_self fun c last => solid_last_body spelled last
  have keyword : Text.afterWord? "import".toList declaration.render.toList =
      some (' ' :: (declaration.body ++ [';'])) := by
    rw [text]
    exact Text.afterWord?_append _ _ (by decide)
  unfold parse parseTrimmed
  simp only [trimmed, keyword, front, ended, back, parseBody_body spelled long]

end Rendered

end Declaration

end ShortNames
