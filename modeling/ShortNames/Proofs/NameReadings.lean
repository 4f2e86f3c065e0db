import ShortNames.Proofs.NamePieces
import ShortNames.Proofs.Respelling

namespace ShortNames

/-- The text of a path, with nothing between its pieces but their separators. -/
def pathText (path : List (String × Separator)) (simple : String) : List Char :=
  path.flatMap (fun piece => piece.1.toList ++ [piece.2.char]) ++ simple.toList

theorem pathText_cons (piece : String × Separator) (path : List (String × Separator)) (simple : String) :
    pathText (piece :: path) simple = piece.1.toList ++ piece.2.char :: pathText path simple := by
  simp [pathText]

theorem Separator.eq_char {c : Char} {separator : Separator} (found : Separator.ofChar? c = some separator) :
    c = separator.char := by
  unfold Separator.ofChar? at found
  split at found <;> cases found <;> rfl

theorem Separator.kind_char (separator : Separator) : Token.Kind.ofChar separator.char = .separator separator := by
  cases separator <;> rfl

namespace TypeName

/-- The pieces of a text before the last one, as a path. -/
def cutPath (text : List Char) : List (String × Separator) :=
  (pieces text).1.map fun piece => (String.ofList piece.1, piece.2)

def cutLast (text : List Char) : String :=
  String.ofList (pieces text).2

/-- To cut a text loses nothing. -/
theorem pathText_cut (text : List Char) : pathText (cutPath text) (cutLast text) = text := by
  unfold cutPath cutLast
  induction text with
  | nil => rfl
  | cons c rest ih =>
    cases mark : Separator.ofChar? c with
    | some separator =>
      simp only [pieces, mark, List.map_cons, pathText_cons, ih, ← Separator.eq_char mark]
      simp
    | none =>
      cases cut : pieces rest with
      | mk before last =>
        rw [cut] at ih
        cases before with
        | nil => simp_all [pieces, pathText]
        | cons piece before => simp_all [pieces, pathText_cons]

/-- Identifiers are what their path is cut into. -/
theorem cut_pathText {path : List (String × Separator)} {simple : String}
    (written : ∀ piece ∈ path.map (·.1) ++ [simple], isIdentifier piece = true) :
    cutPath (pathText path simple) = path ∧ cutLast (pathText path simple) = simple := by
  unfold cutPath cutLast
  induction path with
  | nil =>
    have last := written simple (by simp)
    have whole := pieces_of_parts fun c member => part_of_mem_identifier last member
    simp [pathText, whole]
  | cons piece path ih =>
    have first := written piece.1 (by simp)
    have rest := ih fun other member => written other (List.mem_cons_of_mem _ member)
    rw [pathText_cons, pieces_append_separator fun c member => part_of_mem_identifier first member]
    simp [rest]

/-- What stands between the separators of a text. -/
def segments (text : List Char) : List String :=
  (text.splitOnP fun c => (Separator.ofChar? c).isSome).map String.ofList

theorem segments_eq_pieces (text : List Char) :
    segments text = ((pieces text).1.map (·.1) ++ [(pieces text).2]).map String.ofList := by
  refine congrArg (List.map String.ofList) ?_
  induction text with
  | nil => rfl
  | cons c rest ih =>
    rw [List.splitOnP_cons_eq_if_modifyHead, ih]
    cases mark : Separator.ofChar? c with
    | some separator => simp [pieces, mark]
    | none =>
      cases cut : pieces rest with
      | mk before last => cases before <;> simp [pieces, mark, cut]

theorem segments_eq_cut (text : List Char) : segments text = (cutPath text).map (·.1) ++ [cutLast text] := by
  simp [segments_eq_pieces, cutPath, cutLast]

theorem firstFault?_pieces_eq_none_iff (offset : Nat) (text : List Char) :
    firstFault? offset ((pieces text).1.map (·.1) ++ [(pieces text).2]) = none ↔
      ∀ segment ∈ segments text, isIdentifier segment = true := by
  rw [firstFault?_eq_none_iff, segments_eq_pieces, List.forall_mem_map]
  simp only [isIdentifier, String.toList_ofList]

/-- A name is read if, without the blanks around it, its segments are identifiers, and then as what
it is cut into. -/
theorem parse_eq_ok_iff (text : String) (name : TypeName) :
    parse text = .ok name ↔
      (∀ segment ∈ segments (Text.trim text.toList), isIdentifier segment = true) ∧
        ofPath (cutPath (Text.trim text.toList)) (cutLast (Text.trim text.toList)) = name := by
  rw [← firstFault?_pieces_eq_none_iff (Text.byteLength (text.toList.takeWhile isBlank))]
  unfold parse
  generalize Text.trim text.toList = trimmed
  dsimp only
  split
  · rename_i empty
    rw [List.isEmpty_iff.mp empty]
    simp [pieces, firstFault?]
  · split
    · rename_i fault found
      simp [found]
    · rename_i found
      simp [found, cutPath, cutLast]

theorem parse_eq_ok_iff_of_solid {text : String} (solid : ∀ c ∈ text.toList, isBlank c = false) (name : TypeName) :
    parse text = .ok name ↔
      (∀ segment ∈ segments text.toList, isIdentifier segment = true) ∧
        ofPath (cutPath text.toList) (cutLast text.toList) = name := by
  have trimmed : Text.trim text.toList = text.toList :=
    Text.trim_eq_self (fun c found => solid c (List.mem_of_head? found))
      (fun c found => solid c (List.mem_of_getLast? found))
  rw [parse_eq_ok_iff, trimmed]

end TypeName

namespace Token

/-- The ways in which a text without blanks goes on. -/
theorem solid_cases {text : List Char} (solid : ∀ c ∈ text, isBlank c = false) :
    text = [] ∨
    (∃ word after, text = word ++ after ∧
      terminals text = Token.terminal ⟨.ofWord word after.head?, String.ofList word, 0⟩ :: terminals after) ∨
    (∃ c after, text = c :: after ∧
      terminals text = Token.terminal ⟨.ofChar c, String.singleton c, 0⟩ :: terminals after) := by
  cases text with
  | nil => exact .inl rfl
  | cons c rest =>
    cases start : isIdentifierStart c with
    | true =>
      refine .inr (.inl ⟨c :: rest.takeWhile isIdentifierPart, rest.dropWhile isIdentifierPart, ?_, ?_⟩)
      · rw [List.cons_append, List.takeWhile_append_dropWhile]
      · exact terminals_start start rest
    | false =>
      have gap : isGap c = false := by
        rw [Bool.eq_false_iff]
        intro gap
        have blank := isBlank_of_isGap gap
        rw [solid c (List.mem_cons_self ..)] at blank
        cases blank
      exact .inr (.inr ⟨c, rest, rfl, terminals_mark gap start rest⟩)

theorem text_of_word {text : List Char} (solid : ∀ c ∈ text, isBlank c = false) {word : String}
    {rest : List Terminal} (spelled : terminals text = .word word :: rest) :
    ∃ after, text = word.toList ++ after ∧ terminals after = rest := by
  rcases solid_cases solid with rfl | ⟨found, after, rfl, scanned⟩ | ⟨c, after, rfl, scanned⟩
  · rw [terminals_nil] at spelled
    cases spelled
  · rw [scanned, List.cons.injEq] at spelled
    obtain ⟨same, others⟩ := spelled
    unfold Kind.ofWord at same
    split at same
    · cases same
    · split at same
      · cases same
      · cases same
        exact ⟨after, by rw [String.toList_ofList], others⟩
  · rw [scanned, List.cons.injEq] at spelled
    have same := spelled.1
    unfold Kind.ofChar at same
    split at same <;> cases same

theorem text_of_separator {text : List Char} (solid : ∀ c ∈ text, isBlank c = false) {mark : Separator}
    {rest : List Terminal} (spelled : terminals text = .separator mark :: rest) :
    ∃ after, text = mark.char :: after ∧ terminals after = rest := by
  rcases solid_cases solid with rfl | ⟨found, after, rfl, scanned⟩ | ⟨c, after, rfl, scanned⟩
  · rw [terminals_nil] at spelled
    cases spelled
  · rw [scanned, List.cons.injEq] at spelled
    have same := spelled.1
    unfold Kind.ofWord at same
    split at same
    · cases same
    · split at same <;> cases same
  · rw [scanned, List.cons.injEq] at spelled
    obtain ⟨same, others⟩ := spelled
    unfold Kind.ofChar at same
    split at same <;> cases same <;> exact ⟨after, rfl, others⟩

theorem text_of_nothing {text : List Char} (solid : ∀ c ∈ text, isBlank c = false)
    (spelled : terminals text = []) : text = [] := by
  rcases solid_cases solid with empty | ⟨found, after, rfl, scanned⟩ | ⟨c, after, rfl, scanned⟩
  · exact empty
  · rw [scanned] at spelled
    cases spelled
  · rw [scanned] at spelled
    cases spelled

/-- Without blanks the terminals of a path have one text. -/
theorem eq_pathText {text : List Char} (solid : ∀ c ∈ text, isBlank c = false)
    {path : List (String × Separator)} {simple : String}
    (spelled : terminals text = pathTerminals path simple) : text = pathText path simple := by
  induction path generalizing text with
  | nil =>
    obtain ⟨after, rfl, nothing⟩ := text_of_word solid spelled
    have ended := text_of_nothing (fun c member => solid c (List.mem_append_right _ member)) nothing
    simp [ended, pathText]
  | cons piece path ih =>
    obtain ⟨after, rfl, separated⟩ := text_of_word solid spelled
    have solidAfter := fun c member => solid c (List.mem_append_right _ member)
    obtain ⟨rest, rfl, others⟩ := text_of_separator solidAfter separated
    rw [pathText_cons, ← ih (fun c member => solidAfter c (List.mem_cons_of_mem _ member)) others]

/-- Plain words with separators between them are scanned as a path. -/
theorem terminals_pathText {path : List (String × Separator)} {simple : String}
    (plain : ∀ word ∈ path.map (·.1) ++ [simple], isPlainWord word = true) :
    terminals (pathText path simple) = pathTerminals path simple := by
  induction path with
  | nil =>
    have last := terminals_plain (plain simple (by simp)) breaks_nil
    rwa [List.append_nil, terminals_nil] at last
  | cons piece path ih =>
    have valid : Kind.ofChar piece.2.char ≠ .invalid := by
      rw [Separator.kind_char]
      nofun
    rw [pathText_cons, terminals_plain (plain piece.1 (by simp)) (breaks_mark valid _), terminals_ofChar valid,
      Separator.kind_char, ih fun word member => plain word (List.mem_cons_of_mem _ member)]
    rfl

end Token

namespace TypeExpr

open Grammar

/-- Inner levels behind a type that is more than a name do not make it a name. -/
theorem not_named_of_inners {name : TypeName} : ∀ {level : Nat} {outer type : TypeExpr} {terminals : List Terminal},
    Inners level outer terminals type → outer ≠ .named name → type ≠ .named name
  | _, _, _, _, .done, composed => composed
  | _, _, _, _, .next _ applied rest, _ => not_named_of_inners rest (by cases applied <;> nofun)

/-- A reference is read as a mere name if its tokens are a path. -/
theorem parse_eq_named_iff (text : String) (name : TypeName) :
    parse text = .ok (.named name) ↔
      ∃ path simple, Token.terminals text.toList = pathTerminals path simple ∧ TypeName.ofPath path simple = name := by
  rw [parse_eq_ok_iff]
  constructor
  · intro derived
    generalize Token.terminals text.toList = terminals at derived
    cases derived with
    | unbounded _ arrayType =>
      cases arrayType with
      | element classType =>
        cases classType with
        | plain => exact ⟨_, _, rfl, rfl⟩
        | applied _ _ inners => exact absurd rfl (not_named_of_inners inners nofun)
  · rintro ⟨path, simple, spelled, rfl⟩
    rw [spelled]
    exact .unbounded (by decide) (.element .plain)

/-- A text without blanks is read as a mere name by the reader of references exactly if the
reader of names reads it as that name and no segment of it is a keyword of wildcards. -/
theorem parse_named_iff_parse_name {text : String} (solid : ∀ c ∈ text.toList, isBlank c = false)
    (name : TypeName) :
    parse text = .ok (.named name) ↔
      TypeName.parse text = .ok name ∧
        ∀ segment ∈ TypeName.segments text.toList, segment ≠ "extends" ∧ segment ≠ "super" := by
  rw [parse_eq_named_iff, TypeName.parse_eq_ok_iff_of_solid solid]
  constructor
  · rintro ⟨path, simple, spelled, rfl⟩
    have readable : .invalid ∉ Token.terminals text.toList := by
      rw [spelled]
      simp [pathTerminals]
    have plain : ∀ word ∈ path.map (·.1) ++ [simple], isPlainWord word = true := by
      intro word member
      refine Token.isPlainWord_of_mem readable ?_
      rw [spelled, word_mem_pathTerminals]
      simpa using member
    obtain ⟨samePath, sameLast⟩ := TypeName.cut_pathText fun piece member => (isPlainWord_iff.mp (plain piece member)).1
    rw [← Token.eq_pathText solid spelled] at samePath sameLast
    rw [TypeName.segments_eq_cut, samePath, sameLast]
    exact ⟨⟨fun segment member => (isPlainWord_iff.mp (plain segment member)).1, rfl⟩,
      fun segment member => (isPlainWord_iff.mp (plain segment member)).2⟩
  · rintro ⟨⟨written, rfl⟩, allowed⟩
    refine ⟨TypeName.cutPath text.toList, TypeName.cutLast text.toList, ?_, rfl⟩
    have plain : ∀ word ∈ TypeName.segments text.toList, isPlainWord word = true :=
      fun word member => isPlainWord_iff.mpr ⟨written word member, allowed word member⟩
    rw [TypeName.segments_eq_cut] at plain
    rw [← Token.terminals_pathText plain, TypeName.pathText_cut]

/-- A nested type is read alike with its dollar, and a segment that only starts like a keyword
changes nothing. -/
theorem parse_named_iff_parse_name_entry :
    let text := "java.superb.Map$Entry"
    let name : TypeName := ⟨["java", "superb"], ["Map"], "Entry", false⟩
    TypeName.parse text = .ok name ∧ parse text = .ok (.named name) := by
  intro text name
  have noBlank : text.toList.all (!isBlank ·) = true := by decide +kernel
  have solid : ∀ c ∈ text.toList, isBlank c = false := by simpa using noBlank
  have read : TypeName.parse text = .ok name := eq_ok_of_toOption (by decide +kernel)
  have allowed : ∀ segment ∈ TypeName.segments text.toList, segment ≠ "extends" ∧ segment ≠ "super" := by
    decide +kernel
  exact ⟨read, (parse_named_iff_parse_name solid name).mpr ⟨read, allowed⟩⟩

end TypeExpr

end ShortNames
