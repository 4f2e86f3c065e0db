import ShortNames.Proofs.BuiltNames
import ShortNames.Proofs.NameReadings
import ShortNames.Proofs.NormalForm

namespace ShortNames

/-- How a full name writes a character of the name that was given. -/
def dotForDollar (c : Char) : Char :=
  if c = '$' then '.' else c

theorem dotForDollar_char (separator : Separator) : dotForDollar separator.char = '.' := by
  cases separator <;> rfl

theorem map_dotForDollar_of_identifier {word : String} (valid : isIdentifier word = true) :
    word.toList.map dotForDollar = word.toList := by
  refine (List.map_congr_left fun c member => ?_).trans (List.map_id _)
  have plain := Separator.ofChar?_eq_none_of_part (part_of_mem_identifier valid member)
  refine if_neg ?_
  rintro rfl
  cases plain

theorem isIdentifier_of_isPrimitiveKeyword {word : String} (keyword : isPrimitiveKeyword word = true) :
    isIdentifier word = true := by
  have all : primitiveKeywords.all isIdentifier = true := by decide +kernel
  exact List.all_eq_true.mp all word (List.contains_iff_mem.mp keyword)

namespace Text

/-- A text is its leading blanks, what is left of it when trimmed, and blanks behind. -/
theorem eq_lead_append_trim (text : List Char) :
    ∃ tail, text = text.takeWhile isBlank ++ trim text ++ tail := by
  have ending := takeWhile_append_trimStart (trimStart text).reverse
  refine ⟨((trimStart text).reverse.takeWhile isBlank).reverse, ?_⟩
  have whole : trim text ++ ((trimStart text).reverse.takeWhile isBlank).reverse = trimStart text := by
    rw [trim, trimEnd, ← List.reverse_append]
    exact (congrArg List.reverse ending).trans (List.reverse_reverse _)
  rw [List.append_assoc, whole, takeWhile_append_trimStart]

end Text

namespace TypeName

/-- The separators of a text, in order. -/
def separators (text : List Char) : List Separator :=
  text.filterMap Separator.ofChar?

theorem separators_eq_cut (text : List Char) : separators text = (cutPath text).map (·.2) := by
  unfold separators cutPath
  induction text with
  | nil => rfl
  | cons c rest ih =>
    cases mark : Separator.ofChar? c with
    | some separator => simp [pieces, mark, ih]
    | none =>
      cases cut : pieces rest with
      | mk before last =>
        rw [cut] at ih
        cases before <;> simpa [pieces, mark, cut] using ih

/-- A piece and the separator behind it are cut off first. -/
theorem segments_append_separator {word : String} (valid : isIdentifier word = true) (separator : Separator)
    (after : List Char) :
    segments (word.toList ++ separator.char :: after) = word :: segments after := by
  have cut := pieces_append_separator (fun c member => part_of_mem_identifier valid member) separator after
  simp [segments_eq_pieces, cut]

section Path

variable {path : List (String × Separator)} {simple : String}

theorem toList_qualified_ofPath (written : ∀ piece ∈ path.map (·.1) ++ [simple], isIdentifier piece = true) :
    (ofPath path simple).qualified.toList = (pathText path simple).map dotForDollar := by
  rw [qualified, enclosing_ofPath]
  change (dotted (path.map (·.1) ++ [simple])).toList = _
  induction path with
  | nil =>
    have last := map_dotForDollar_of_identifier (written simple (by simp))
    simp [dotted, pathText, last]
  | cons piece path ih =>
    have first := map_dotForDollar_of_identifier (written piece.1 (by simp))
    have rest := ih fun other member => written other (List.mem_cons_of_mem _ member)
    rw [List.map_cons, List.cons_append, toList_dotted_cons piece.1 (by simp), rest, pathText_cons,
      List.map_append, List.map_cons, first, dotForDollar_char]

/-- The package ends before the piece that ends at the first dollar. -/
theorem package_ofPath : (ofPath path simple).package = (path.map (·.1)).take ((path.map (·.2)).idxOf .dollar) := by
  change (path.takeWhile (·.2 == .dot)).map (·.1) = _
  induction path with
  | nil => rfl
  | cons piece path ih =>
    obtain ⟨word, separator⟩ := piece
    cases separator with
    | dot =>
      have later : (Separator.dot :: path.map (·.2)).idxOf .dollar = (path.map (·.2)).idxOf .dollar + 1 := by
        rw [List.idxOf_cons]
        rfl
      rw [List.map_cons, List.map_cons, later, List.take_succ_cons, ← ih]
      rfl
    | dollar => simp

theorem package?_ofPath_of_dollar_first (first : path.map (·.2) = [] ∨ (path.map (·.2)).head? = some .dollar) :
    (ofPath path simple).package? = none := by
  have empty : (ofPath path simple).package = [] := by
    rw [package_ofPath]
    cases path with
    | nil => rfl
    | cons piece path =>
      have mark : piece.2 = .dollar := by simpa using first
      simp [mark]
  simp [package?, empty, dotted?]

theorem package?_ofPath_of_dots (dots : .dollar ∉ path.map (·.2)) :
    (ofPath path simple).package? = (ofPath path simple).qualifier? := by
  have whole : (ofPath path simple).package = path.map (·.1) := by
    rw [package_ofPath, List.idxOf_eq_length dots]
    exact List.take_of_length_le (by simp)
  rw [package?, qualifier?, whole, enclosing_ofPath]

theorem package?_ofPath_of_dot_first (first : (path.map (·.2)).head? = some .dot) :
    (ofPath path simple).package? = some (dotted ((path.map (·.1)).take ((path.map (·.2)).idxOf .dollar))) := by
  have nonempty : (ofPath path simple).package ≠ [] := by
    cases path with
    | nil => cases first
    | cons piece path =>
      have mark : piece.2 = .dot := by simpa using first
      simp [ofPath, mark]
  rw [package?, dotted?, if_neg (by simpa using nonempty), package_ofPath]

/-- A keyword has no separators, so it is a keyword on its own. -/
theorem primitive_ofPath :
    (ofPath path simple).primitive = isPrimitiveKeyword (String.ofList (pathText path simple)) := by
  cases path with
  | nil => simp [ofPath, pathText]
  | cons piece path =>
    symm
    rw [ofPath, List.isEmpty_cons, Bool.false_and, Bool.eq_false_iff]
    intro keyword
    have member : piece.2.char ∈ (String.ofList (pathText (piece :: path) simple)).toList := by
      simp [pathText_cons]
    have plain := Separator.ofChar?_eq_none_of_part
      (part_of_mem_identifier (isIdentifier_of_isPrimitiveKeyword keyword) member)
    rw [Separator.ofChar?_char] at plain
    cases plain

end Path

/-- What the parts of a name are, told by the text that it was read from. -/
structure Decomposes (text : List Char) (name : TypeName) : Prop where
  qualified : name.qualified.toList = text.map dotForDollar
  simple : (segments text).getLast? = some name.simple
  qualifier : name.qualifier? = dotted? (segments text).dropLast
  noPackage : separators text = [] ∨ (separators text).head? = some .dollar → name.package? = none
  dottedPackage : .dollar ∉ separators text → name.package? = name.qualifier?
  nestedPackage : (separators text).head? = some .dot → .dollar ∈ separators text →
    name.package? = some (dotted ((segments text).take ((separators text).idxOf .dollar)))
  primitive : name.primitive = isPrimitiveKeyword (String.ofList text)

theorem decomposes_of_parse {text : String} {name : TypeName} (parsed : parse text = .ok name) :
    Decomposes (Text.trim text.toList) name := by
  obtain ⟨written, rfl⟩ := (parse_eq_ok_iff text name).mp parsed
  generalize Text.trim text.toList = trimmed at written
  have whole := pathText_cut trimmed
  have marks := separators_eq_cut trimmed
  have pieces := segments_eq_cut trimmed
  rw [pieces] at written
  generalize cutPath trimmed = path at whole marks pieces written
  generalize cutLast trimmed = last at whole pieces written
  constructor
  · rw [toList_qualified_ofPath written, whole]
  · rw [pieces, List.getLast?_concat]
    rfl
  · rw [pieces, List.dropLast_concat, qualifier?, enclosing_ofPath]
  · rw [marks]
    exact package?_ofPath_of_dollar_first
  · rw [marks]
    exact package?_ofPath_of_dots
  · intro first nested
    rw [marks] at first nested
    have within : (path.map (·.2)).idxOf .dollar ≤ (path.map (·.1)).length := by
      have inside := List.idxOf_lt_length_iff.mpr nested
      simp only [List.length_map] at inside ⊢
      omega
    rw [pieces, marks, List.take_append_of_le_length within]
    exact package?_ofPath_of_dot_first first
  · rw [← whole]
    exact primitive_ofPath

/-- A full name is read as a name with the same text and the same parts, up to its package. -/
theorem parse_qualified_of_parse {text : String} {name : TypeName} (parsed : parse text = .ok name) :
    ∃ again, parse name.qualified = .ok again ∧ again.qualified = name.qualified ∧
      again.qualifier? = name.qualifier? ∧ again.simple = name.simple ∧ again.primitive = name.primitive := by
  refine ⟨name.flat, ?_, name.qualified_flat, name.qualifier?_flat, rfl, rfl⟩
  rw [← (isPath_of_parse parsed).inDots_eq_flat]
  exact (isWritten_of_parse parsed).parse_qualified

/-- A piece starts at a byte offset of a text: before it stand only the leading blanks and some
earlier pieces, each with its separator. -/
def PieceAt (text : List Char) (earlier : List String) (piece : String) (offset : Nat) : Prop :=
  ∃ front after, text = text.takeWhile isBlank ++ front ++ piece.toList ++ after ∧
    segments front = earlier ++ [""] ∧ Text.byteLength (text.takeWhile isBlank ++ front) = offset

theorem PieceAt.le_byteLength {text : List Char} {earlier : List String} {piece : String} {offset : Nat}
    (place : PieceAt text earlier piece offset) : offset ≤ Text.byteLength text := by
  obtain ⟨front, after, split, -, rfl⟩ := place
  have whole := congrArg Text.byteLength split
  rw [Text.byteLength_append, Text.byteLength_append] at whole
  omega

/-- What is reported of a text that is no name: its leftmost piece that is no identifier. The offset
is what 32 bits keep of its place, which is the place itself unless the text is too long. -/
def FirstBadPiece (text : List Char) (fault : Fault) : Prop :=
  ∃ good piece rest place, segments (Text.trim text) = good ++ piece :: rest ∧
    (∀ earlier ∈ good, isIdentifier earlier = true) ∧ isIdentifier piece = false ∧
    PieceAt text good piece place ∧ fault.offset = .ofNat place ∧
    (Text.byteLength text < UInt32.size → fault.offset.toNat = place) ∧
    fault.cause = if piece = "" then .missingIdentifier else .invalidCharacter

theorem firstFault?_cons (offset : Nat) (word : String) (rest : List (List Char)) :
    firstFault? offset (word.toList :: rest) =
      if isIdentifier word = true then firstFault? (offset + Text.byteLength word.toList + 1) rest
      else some ⟨.ofNat offset, if word = "" then .missingIdentifier else .invalidCharacter⟩ := by
  by_cases empty : word = ""
  · subst empty
    rfl
  · have nonempty : word.toList.isEmpty = false := by simpa using empty
    simp only [firstFault?, nonempty, Bool.false_eq_true, if_false, if_neg empty]
    rfl

theorem firstFault?_path {offset : Nat} {path : List (String × Separator)} {last : String} {fault : Fault}
    (found : firstFault? offset (path.map (·.1.toList) ++ [last.toList]) = some fault) :
    ∃ good piece rest front after, path.map (·.1) ++ [last] = good ++ piece :: rest ∧
      (∀ earlier ∈ good, isIdentifier earlier = true) ∧ isIdentifier piece = false ∧
      pathText path last = front ++ piece.toList ++ after ∧ segments front = good ++ [""] ∧
      fault = ⟨.ofNat (offset + Text.byteLength front),
        if piece = "" then .missingIdentifier else .invalidCharacter⟩ := by
  induction path generalizing offset with
  | nil =>
    rw [List.map_nil, List.nil_append, firstFault?_cons] at found
    split at found
    · cases found
    · rename_i bad
      cases found
      exact ⟨[], last, [], [], [], rfl, nofun, Bool.eq_false_iff.mpr bad, by simp [pathText], rfl, rfl⟩
  | cons piece path ih =>
    rw [List.map_cons, List.cons_append, firstFault?_cons] at found
    split at found
    · rename_i valid
      obtain ⟨good, bad, rest, front, after, split, fine, wrong, text, before, rfl⟩ := ih found
      refine ⟨piece.1 :: good, bad, rest, piece.1.toList ++ piece.2.char :: front, after, ?_, ?_, wrong, ?_, ?_, ?_⟩
      · rw [List.map_cons, List.cons_append, split, List.cons_append]
      · rintro earlier (_ | ⟨_, member⟩)
        · exact valid
        · exact fine earlier member
      · rw [pathText_cons, text]
        simp
      · rw [segments_append_separator valid, before, List.cons_append]
      · have byte : piece.2.char.utf8Size = 1 := by cases piece.2 <;> rfl
        simp only [Text.byteLength_append, Text.byteLength_cons, byte]
        congr 2
        omega
    · rename_i bad
      cases found
      refine ⟨[], piece.1, path.map (·.1) ++ [last], [], piece.2.char :: pathText path last, rfl, nofun,
        Bool.eq_false_iff.mpr bad, ?_, rfl, rfl⟩
      rw [pathText_cons]
      simp

theorem fault_of_parse {text : String} {error : Error} (failed : parse text = .error error) :
    ∃ fault, error = .malformed text fault ∧ (Text.trim text.toList = [] → fault = ⟨0, .empty⟩) ∧
      (Text.trim text.toList ≠ [] → FirstBadPiece text.toList fault) := by
  unfold parse at failed
  dsimp only at failed
  split at failed
  · rename_i empty
    cases failed
    exact ⟨⟨0, .empty⟩, rfl, fun _ => rfl, fun nonempty => absurd (List.isEmpty_iff.mp empty) nonempty⟩
  · rename_i nonempty
    split at failed
    · rename_i fault found
      cases failed
      refine ⟨fault, rfl, fun empty => absurd (List.isEmpty_iff.mpr empty) nonempty, fun _ => ?_⟩
      have words : (pieces (Text.trim text.toList)).1.map (·.1) ++ [(pieces (Text.trim text.toList)).2] =
          (cutPath (Text.trim text.toList)).map (·.1.toList) ++ [(cutLast (Text.trim text.toList)).toList] := by
        simp [cutPath, cutLast]
      rw [words] at found
      obtain ⟨good, piece, rest, front, after, split, fine, wrong, cut, before, rfl⟩ := firstFault?_path found
      rw [pathText_cut] at cut
      obtain ⟨tail, whole⟩ := Text.eq_lead_append_trim text.toList
      have place : text.toList = text.toList.takeWhile isBlank ++ front ++ piece.toList ++ (after ++ tail) := by
        rw [cut] at whole
        simpa using whole
      have found : PieceAt text.toList good piece (Text.byteLength (text.toList.takeWhile isBlank) +
          Text.byteLength front) :=
        ⟨front, after ++ tail, place, before, Text.byteLength_append _ _⟩
      refine ⟨good, piece, rest, _, (segments_eq_cut _).trans split, fine, wrong, found, rfl, fun short => ?_, rfl⟩
      exact UInt32.toNat_ofNat_of_lt' (Nat.lt_of_le_of_lt found.le_byteLength short)
    · cases failed

/-- A name is taken apart exactly. It can be read if the text without the blanks around it is not empty
and has identifiers between its separators. The parts of the name are then told by that text, and are
the same, up to the package, if the full name is read again. Otherwise the fault is that the text is
blank, or its first bad piece, at its place as far as 32 bits can say it. -/
theorem parse_decomposes (text : String) :
    ((∃ name, parse text = .ok name) ↔ Text.trim text.toList ≠ [] ∧
      ∀ segment ∈ segments (Text.trim text.toList), isIdentifier segment = true) ∧
    (∀ name, parse text = .ok name → Decomposes (Text.trim text.toList) name ∧
      ∃ again, parse name.qualified = .ok again ∧ again.qualified = name.qualified ∧
        again.qualifier? = name.qualifier? ∧ again.simple = name.simple ∧ again.primitive = name.primitive) ∧
    ∀ error, parse text = .error error →
      ∃ fault, error = .malformed text fault ∧ (Text.trim text.toList = [] → fault = ⟨0, .empty⟩) ∧
        (Text.trim text.toList ≠ [] → FirstBadPiece text.toList fault) := by
  refine ⟨⟨?_, ?_⟩, fun name parsed => ⟨decomposes_of_parse parsed, parse_qualified_of_parse parsed⟩,
    fun error => fault_of_parse⟩
  · rintro ⟨name, parsed⟩
    have written := ((parse_eq_ok_iff text name).mp parsed).1
    refine ⟨fun empty => ?_, written⟩
    rw [empty] at written
    have invalid := written "" (List.mem_singleton.mpr rfl)
    cases invalid
  · rintro ⟨-, written⟩
    exact ⟨_, (parse_eq_ok_iff text _).mpr ⟨written, rfl⟩⟩

/-- A name with both separators, then one whose first bad piece stands behind a blank and a letter
of two bytes. -/
theorem parse_decomposes_nested :
    let text := "\tjava.util.Map$Entry.Key "
    let name : TypeName := ⟨["java", "util"], ["Map", "Entry"], "Key", false⟩
    parse text = .ok name ∧ Decomposes (Text.trim text.toList) name ∧
      parse " é.1b..c" = .error (.malformed " é.1b..c" ⟨4, .invalidCharacter⟩) ∧
      FirstBadPiece " é.1b..c".toList ⟨4, .invalidCharacter⟩ := by
  intro text name
  have read : parse text = .ok name := eq_ok_of_toOption (by decide +kernel)
  have refused : parse " é.1b..c" = .error (.malformed " é.1b..c" ⟨4, .invalidCharacter⟩) := rfl
  obtain ⟨fault, same, -, reported⟩ := (parse_decomposes " é.1b..c").2.2 _ refused
  cases same
  exact ⟨read, ((parse_decomposes text).2.1 name read).1, refused, reported (by decide +kernel)⟩

theorem parse_digit_behind (count : Nat) :
    let text := String.ofList (List.replicate count ' ' ++ ['1'])
    text.toList.takeWhile isBlank = List.replicate count ' ' ∧
      parse text = .error (.malformed text ⟨.ofNat count, .invalidCharacter⟩) := by
  intro text
  have blanks : ∀ c ∈ List.replicate count ' ', isBlank c = true := by
    intro c member
    rw [List.eq_of_mem_replicate member]
    decide
  have digit : isBlank '1' = false := by decide
  have lead : text.toList.takeWhile isBlank = List.replicate count ' ' := by
    rw [String.toList_ofList, List.takeWhile_append_of_pos blanks, List.takeWhile_cons_of_neg (by simp [digit]),
      List.append_nil]
  have trimmed : Text.trim text.toList = ['1'] := by
    rw [String.toList_ofList, Text.trim, Text.trimStart, List.dropWhile_append_of_pos blanks]
    decide
  refine ⟨lead, ?_⟩
  unfold parse
  simp only [trimmed, lead, Text.byteLength_spaces]
  rfl

/-- Behind as many blanks as there are offsets, a digit is said to stand at the start of the text,
where no piece is. -/
theorem parse_offset_wraps_long :
    let text := String.ofList (List.replicate UInt32.size ' ' ++ ['1'])
    parse text = .error (.malformed text ⟨0, .invalidCharacter⟩) ∧
      ∀ earlier piece, ¬ PieceAt text.toList earlier piece 0 := by
  intro text
  obtain ⟨lead, failed⟩ := parse_digit_behind UInt32.size
  refine ⟨failed, fun earlier piece place => ?_⟩
  obtain ⟨front, after, -, -, bytes⟩ := place
  rw [lead, Text.byteLength_append, Text.byteLength_spaces] at bytes
  have positive : 0 < UInt32.size := by decide
  omega

end TypeName

end ShortNames
