import ShortNames.Proofs.Characters
import ShortNames.TypeName.Reader

namespace ShortNames

def Separator.char : Separator → Char
  | .dot => '.'
  | .dollar => '$'

@[simp] theorem Separator.ofChar?_char (separator : Separator) : Separator.ofChar? separator.char = some separator := by
  cases separator <;> rfl

theorem Separator.ofChar?_eq_none_of_part {c : Char} (part : isIdentifierPart c = true) :
    Separator.ofChar? c = none := by
  unfold Separator.ofChar?
  split
  · have foreign : isIdentifierPart '.' = false := by decide +kernel
    rw [foreign] at part
    cases part
  · have foreign : isIdentifierPart '$' = false := by decide +kernel
    rw [foreign] at part
    cases part
  · rfl

theorem part_of_mem_identifier {word : String} (valid : isIdentifier word = true) {c : Char}
    (member : c ∈ word.toList) : isIdentifierPart c = true :=
  List.all_eq_true.mp (isWord_all valid) c member

theorem isBlank_eq_false_of_part {c : Char} (part : isIdentifierPart c = true) : isBlank c = false := by
  rw [Bool.eq_false_iff]
  intro blank
  rw [isIdentifierPart_eq_false_of_isBlank blank] at part
  cases part

namespace Text

theorem trimStart_eq_self {text : List Char} (solid : ∀ c, text.head? = some c → isBlank c = false) :
    trimStart text = text := by
  cases text with
  | nil => rfl
  | cons c rest => exact List.dropWhile_cons_of_neg (by rw [solid c rfl]; exact Bool.false_ne_true)

theorem trimEnd_eq_self {text : List Char} (solid : ∀ c, text.getLast? = some c → isBlank c = false) :
    trimEnd text = text := by
  have front : trimStart text.reverse = text.reverse :=
    trimStart_eq_self fun c found => solid c (List.head?_reverse ▸ found)
  rw [← List.reverse_reverse text, trimEnd_reverse, front]

/-- Only blanks at the two ends of a text are trimmed. -/
theorem trim_eq_self {text : List Char} (front : ∀ c, text.head? = some c → isBlank c = false)
    (back : ∀ c, text.getLast? = some c → isBlank c = false) : trim text = text := by
  rw [trim, trimStart_eq_self front, trimEnd_eq_self back]

end Text

theorem toList_dotted_cons (piece : String) {rest : List String} (more : rest ≠ []) :
    (dotted (piece :: rest)).toList = piece.toList ++ '.' :: (dotted rest).toList := by
  rw [dotted, String.intercalate_cons_of_ne_nil more]
  simp [dotted]

/-- What identifiers with dots between them are made of. -/
theorem char_of_mem_dotted {pieces : List String} (written : ∀ piece ∈ pieces, isIdentifier piece = true)
    {c : Char} (member : c ∈ (dotted pieces).toList) : isIdentifierPart c = true ∨ c = '.' := by
  induction pieces with
  | nil => simp [dotted] at member
  | cons piece rest ih =>
    have first := fun found => part_of_mem_identifier (c := c) (written piece (List.mem_cons_self ..)) found
    cases rest with
    | nil =>
      rw [dotted, String.intercalate_singleton] at member
      exact .inl (first member)
    | cons next rest =>
      rw [toList_dotted_cons piece (List.cons_ne_nil next rest)] at member
      rcases List.mem_append.mp member with found | found
      · exact .inl (first found)
      · rcases List.mem_cons.mp found with dot | found
        · exact .inr dot
        · exact ih (fun other inRest => written other (List.mem_cons_of_mem _ inRest)) found

theorem isBlank_eq_false_of_mem_dotted {pieces : List String}
    (written : ∀ piece ∈ pieces, isIdentifier piece = true) {c : Char}
    (member : c ∈ (dotted pieces).toList) : isBlank c = false := by
  rcases char_of_mem_dotted written member with part | rfl
  · exact isBlank_eq_false_of_part part
  · decide

/-- The text is some identifiers with dots between them. -/
def IsDotted (pieces : List String) (text : String) : Prop :=
  text = dotted pieces ∧ ∀ piece ∈ pieces, isIdentifier piece = true

namespace TypeName

/-- Every piece of the name is an identifier. -/
def IsWritten (name : TypeName) : Prop :=
  ∀ piece ∈ name.enclosing ++ [name.simple], isIdentifier piece = true

theorem firstFault?_eq_none_iff {offset : Nat} {words : List (List Char)} :
    firstFault? offset words = none ↔ ∀ word ∈ words, isWord word = true := by
  induction words generalizing offset with
  | nil => simp [firstFault?]
  | cons word rest ih =>
    unfold firstFault?
    cases word with
    | nil => simp [isWord]
    | cons c word =>
      cases valid : isWord (c :: word) with
      | false => simp [valid]
      | true => simp [valid, ih]

/-- Only names whose pieces are identifiers are read. -/
theorem isWritten_of_parse {text : String} {name : TypeName} (parsed : parse text = .ok name) :
    name.IsWritten := by
  unfold parse at parsed
  dsimp only at parsed
  split at parsed
  · cases parsed
  · split at parsed
    · cases parsed
    · rename_i faultless
      cases parsed
      rw [firstFault?_eq_none_iff] at faultless
      intro piece member
      rw [enclosing_ofPath, List.map_map] at member
      rcases List.mem_append.mp member with inPath | last
      · obtain ⟨cut, inCut, rfl⟩ := List.mem_map.mp inPath
        simpa [isIdentifier] using faultless cut.1 (by simpa using .inl ⟨cut.2, inCut⟩)
      · rw [List.mem_singleton.mp last]
        simpa [isIdentifier, ofPath] using faultless _ (by simp)

theorem pieces_of_parts {word : List Char} (parts : ∀ c ∈ word, isIdentifierPart c = true) :
    pieces word = ([], word) := by
  induction word with
  | nil => rfl
  | cons c word ih =>
    have rest := ih fun d member => parts d (List.mem_cons_of_mem _ member)
    have plain := Separator.ofChar?_eq_none_of_part (parts c (List.mem_cons_self ..))
    simp only [pieces, plain, rest]

theorem pieces_append_separator {word : List Char} (parts : ∀ c ∈ word, isIdentifierPart c = true)
    (separator : Separator) (after : List Char) :
    pieces (word ++ separator.char :: after) = ((word, separator) :: (pieces after).1, (pieces after).2) := by
  induction word with
  | nil => simp only [List.nil_append, pieces, Separator.ofChar?_char]
  | cons c word ih =>
    have rest := ih fun d member => parts d (List.mem_cons_of_mem _ member)
    have plain := Separator.ofChar?_eq_none_of_part (parts c (List.mem_cons_self ..))
    simp only [List.cons_append, pieces, plain, rest]

theorem pieces_dotted {outer : List String} {simple : String}
    (written : ∀ piece ∈ outer ++ [simple], isIdentifier piece = true) :
    pieces (dotted (outer ++ [simple])).toList =
      (outer.map fun piece => (piece.toList, .dot), simple.toList) := by
  induction outer with
  | nil =>
    have last := written simple (List.mem_cons_self ..)
    rw [List.nil_append, dotted, String.intercalate_singleton]
    exact pieces_of_parts fun c member => part_of_mem_identifier last member
  | cons piece outer ih =>
    have first := written piece (List.mem_cons_self ..)
    have rest := ih fun other member => written other (List.mem_cons_of_mem _ member)
    have cut := pieces_append_separator (fun c member => part_of_mem_identifier first member) .dot
      (dotted (outer ++ [simple])).toList
    rw [List.cons_append, toList_dotted_cons piece (by simp)]
    exact cut.trans (by rw [rest]; rfl)

theorem dotted_ne_nil {outer : List String} {simple : String}
    (written : ∀ piece ∈ outer ++ [simple], isIdentifier piece = true) :
    (dotted (outer ++ [simple])).toList ≠ [] := by
  intro empty
  have cut := pieces_dotted written
  rw [empty] at cut
  have none : [] = simple.toList := congrArg Prod.snd cut
  have valid := written simple (by simp)
  rw [isIdentifier, ← none] at valid
  cases valid

/-- A full name in dots is read as the pieces that it was put together from. -/
theorem parse_dotted {outer : List String} {simple : String}
    (written : ∀ piece ∈ outer ++ [simple], isIdentifier piece = true) :
    parse (dotted (outer ++ [simple])) = .ok (ofPath (outer.map (·, .dot)) simple) := by
  have solid := fun c => isBlank_eq_false_of_mem_dotted written (c := c)
  have trimmed : Text.trim (dotted (outer ++ [simple])).toList = (dotted (outer ++ [simple])).toList :=
    Text.trim_eq_self (fun c found => solid c (List.mem_of_head? found))
      (fun c found => solid c (List.mem_of_getLast? found))
  have words : ∀ word ∈ outer.map String.toList ++ [simple.toList], isWord word = true := by
    intro word member
    rcases List.mem_append.mp member with inOuter | last
    · obtain ⟨piece, found, rfl⟩ := List.mem_map.mp inOuter
      exact written piece (List.mem_append_left _ found)
    · rw [List.mem_singleton.mp last]
      exact written simple (List.mem_append_right _ (List.mem_cons_self ..))
  have nonempty := List.isEmpty_eq_false_iff.mpr (dotted_ne_nil written)
  unfold parse
  simp only [trimmed, nonempty, pieces_dotted written, List.map_map, Function.comp_def,
    firstFault?_eq_none_iff.mpr words, Bool.false_eq_true, if_false, String.ofList_toList]

/-- The pieces of a full name can be told from its text. -/
theorem dotted_inj {outer other : List String} {simple last : String}
    (written : ∀ piece ∈ outer ++ [simple], isIdentifier piece = true)
    (writtenToo : ∀ piece ∈ other ++ [last], isIdentifier piece = true)
    (same : dotted (outer ++ [simple]) = dotted (other ++ [last])) : outer = other ∧ simple = last := by
  have read := parse_dotted written
  rw [same, parse_dotted writtenToo] at read
  have names := Except.ok.inj read
  have enclosing := congrArg TypeName.enclosing names
  simp only [enclosing_ofPath, List.map_map, Function.comp_def, List.map_id'] at enclosing
  exact ⟨enclosing.symm, (congrArg TypeName.simple names).symm⟩

end TypeName

/-- A full name in dots is read, and keeps its text. -/
theorem IsDotted.parse {outer : List String} {simple text : String} (spelled : IsDotted (outer ++ [simple]) text) :
    ∃ name, TypeName.parse text = .ok name ∧ name.qualified = text ∧ name.simple = simple ∧
      (outer ≠ [] → name.isQualified = true ∧ name.primitive = false) := by
  obtain ⟨rfl, written⟩ := spelled
  refine ⟨_, TypeName.parse_dotted written, ?_, rfl, fun long => ?_⟩
  · rw [TypeName.qualified, TypeName.enclosing_ofPath]
    simp [Function.comp_def, TypeName.ofPath]
  · constructor
    · simpa [TypeName.isQualified] using long
    · simp [TypeName.ofPath, long]

end ShortNames
