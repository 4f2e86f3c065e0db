import Mathlib.Data.List.Basic
import ShortNames.Proofs.NamePieces
import ShortNames.Proofs.Scanning

namespace ShortNames

namespace Text

theorem byteLength_pos {text : List Char} (nonempty : text ≠ []) : 0 < byteLength text := by
  cases text with
  | nil => exact absurd rfl nonempty
  | cons c rest =>
    have := c.utf8Size_pos
    rw [byteLength_cons]
    omega

/-- Of two parts at the front of a text, the one with no more bytes is at the front of the other. -/
theorem split_of_byteLength_le {front back first second : List Char} (same : front ++ back = first ++ second)
    (le : byteLength front ≤ byteLength first) :
    ∃ between, first = front ++ between ∧ back = between ++ second := by
  rcases List.append_eq_append_iff.mp same with ⟨between, longer, others⟩ | ⟨between, rfl, rfl⟩
  · exact ⟨between, longer, others⟩
  · have none : between = [] := by
      by_contra some
      have := byteLength_pos some
      rw [byteLength_append] at le
      omega
    subst none
    exact ⟨[], by simp, by simp⟩

end Text

namespace Token

/-- The byte offset behind a token. -/
def stop (token : Token) : Nat :=
  token.offset.toNat + Text.byteLength token.text.toList

theorem stop_ofList (kind : Kind) (word : List Char) {start : Nat} (fits : start < UInt32.size) :
    stop ⟨kind, String.ofList word, .ofNatClamp start⟩ = start + Text.byteLength word := by
  simp [stop, UInt32.toNat_ofNatClamp_of_lt fits]

theorem ofNatClamp_toNat (offset : UInt32) : UInt32.ofNatClamp offset.toNat = offset :=
  UInt32.toNat_inj.mp (UInt32.toNat_ofNatClamp_of_lt offset.toNat_lt)

/-- Neither a gap between tokens nor the first character of a word or of a mark. -/
def StartsNothing (c : Char) : Prop :=
  isGap c = false ∧ isIdentifierStart c = false ∧ c ∉ ".$,<>[]?".toList

/-- The texts that belong to a kind of token, given what stands behind them. A word goes on as long
as it can. A keyword is one only if it may end before the character behind it. -/
def Kind.Reads (kind : Kind) (word after : List Char) : Prop :=
  match kind with
  | .identifier => isWord word = true ∧ Breaks after ∧
      (word = "extends".toList ∨ word = "super".toList → endsKeyword after.head? = false)
  | .extendsWord => word = "extends".toList ∧ Breaks after ∧ endsKeyword after.head? = true
  | .superWord => word = "super".toList ∧ Breaks after ∧ endsKeyword after.head? = true
  | .separator mark => word = [mark.char]
  | .comma => word = [',']
  | .openAngle => word = ['<']
  | .closeAngle => word = ['>']
  | .openSquare => word = ['[']
  | .closeSquare => word = [']']
  | .question => word = ['?']
  | .invalid => ∃ c, word = [c] ∧ StartsNothing c

theorem ofChar_eq_invalid_iff (c : Char) : Kind.ofChar c = .invalid ↔ c ∉ ".$,<>[]?".toList := by
  unfold Kind.ofChar
  split <;> simp_all

theorem reads_ofWord {word after : List Char} (valid : isWord word = true) (ends : Breaks after) :
    (Kind.ofWord word after.head?).Reads word after := by
  unfold Kind.ofWord
  split
  · rename_i keyword
    exact ⟨keyword.1, ends, keyword.2⟩
  · rename_i notExtends
    split
    · rename_i keyword
      exact ⟨keyword.1, ends, keyword.2⟩
    · rename_i notSuper
      refine ⟨valid, ends, fun keyword => Bool.eq_false_iff.mpr fun ended => ?_⟩
      rcases keyword with same | same
      · exact notExtends ⟨same, ended⟩
      · exact notSuper ⟨same, ended⟩

theorem reads_start {c : Char} (start : isIdentifierStart c = true) (rest : List Char) :
    (Kind.ofWord (c :: rest.takeWhile isIdentifierPart) (rest.dropWhile isIdentifierPart).head?).Reads
      (c :: rest.takeWhile isIdentifierPart) (rest.dropWhile isIdentifierPart) :=
  reads_ofWord (by simp [isWord, start]) (breaks_dropWhile rest)

theorem reads_ofChar {c : Char} (gap : isGap c = false) (start : isIdentifierStart c = false) (after : List Char) :
    (Kind.ofChar c).Reads [c] after := by
  by_cases marked : c ∈ ".$,<>[]?".toList
  · have mark : c = '.' ∨ c = '$' ∨ c = ',' ∨ c = '<' ∨ c = '>' ∨ c = '[' ∨ c = ']' ∨ c = '?' := by
      simpa using marked
    rcases mark with rfl | rfl | rfl | rfl | rfl | rfl | rfl | rfl <;> rfl
  · rw [(ofChar_eq_invalid_iff c).mpr marked]
    exact ⟨c, rfl, gap, start, marked⟩

/-- A token is a word, of a kind that the word and what is behind it decide, or a single character. -/
theorem reads_iff {kind : Kind} {word after : List Char} :
    kind.Reads word after ↔
      (isWord word = true ∧ Breaks after ∧ kind = .ofWord word after.head?) ∨
      ∃ c, word = [c] ∧ isGap c = false ∧ isIdentifierStart c = false ∧ kind = .ofChar c := by
  have mark {c : Char} (valid : Kind.ofChar c ≠ .invalid) (same : word = [c]) :
      ∃ d, word = [d] ∧ isGap d = false ∧ isIdentifierStart d = false ∧ Kind.ofChar c = .ofChar d := by
    have foreign := foreign_of_ofChar valid
    exact ⟨c, same, foreign.2.1, isIdentifierStart_eq_false foreign.1, rfl⟩
  constructor
  · intro reads
    cases kind with
    | identifier =>
      obtain ⟨valid, ends, unended⟩ := reads
      refine .inl ⟨valid, ends, ?_⟩
      have notExtends : ¬ (word = "extends".toList ∧ endsKeyword after.head? = true) := fun both =>
        Bool.eq_false_iff.mp (unended (.inl both.1)) both.2
      have notSuper : ¬ (word = "super".toList ∧ endsKeyword after.head? = true) := fun both =>
        Bool.eq_false_iff.mp (unended (.inr both.1)) both.2
      rw [Kind.ofWord, if_neg notExtends, if_neg notSuper]
    | extendsWord =>
      obtain ⟨rfl, ends, ended⟩ := reads
      exact .inl ⟨by decide +kernel, ends, by rw [Kind.ofWord, if_pos ⟨rfl, ended⟩]⟩
    | superWord =>
      obtain ⟨rfl, ends, ended⟩ := reads
      refine .inl ⟨by decide +kernel, ends, ?_⟩
      rw [Kind.ofWord, if_neg (fun both => absurd both.1 (by decide)), if_pos ⟨rfl, ended⟩]
    | invalid =>
      obtain ⟨c, rfl, gap, start, unmarked⟩ := reads
      exact .inr ⟨c, rfl, gap, start, ((ofChar_eq_invalid_iff c).mpr unmarked).symm⟩
    | separator separator =>
      cases separator
      · exact .inr (@mark '.' (by decide) reads)
      · exact .inr (@mark '$' (by decide) reads)
    | comma => exact .inr (@mark ',' (by decide) reads)
    | openAngle => exact .inr (@mark '<' (by decide) reads)
    | closeAngle => exact .inr (@mark '>' (by decide) reads)
    | openSquare => exact .inr (@mark '[' (by decide) reads)
    | closeSquare => exact .inr (@mark ']' (by decide) reads)
    | question => exact .inr (@mark '?' (by decide) reads)
  · rintro (⟨valid, ends, rfl⟩ | ⟨c, rfl, gap, start, rfl⟩)
    · exact reads_ofWord valid ends
    · exact reads_ofChar gap start after

theorem Kind.Reads.ne_nil {kind : Kind} {word after : List Char} (reads : kind.Reads word after) : word ≠ [] := by
  rcases reads_iff.mp reads with ⟨valid, -⟩ | ⟨c, rfl, -⟩
  · rintro rfl
    cases valid
  · exact List.cons_ne_nil c []

theorem Kind.Reads.solid {kind : Kind} {word after : List Char} (reads : kind.Reads word after) :
    ∀ c ∈ word, isGap c = false := by
  intro c member
  rcases reads_iff.mp reads with ⟨valid, -⟩ | ⟨d, rfl, gap, -⟩
  · exact isGap_eq_false_of_part (List.all_eq_true.mp (isWord_all valid) c member)
  · rw [List.mem_singleton.mp member]
    exact gap

/-- A word that ends where it must is all that can be taken from the front. -/
theorem takeWhile_of_isWord {word after : List Char} (valid : isWord word = true) (ends : Breaks after) :
    (word ++ after).takeWhile isIdentifierPart = word := by
  rw [List.takeWhile_append_of_pos (List.all_eq_true.mp (isWord_all valid)), ends.takeWhile_eq_nil, List.append_nil]

/-- The first character tells a word from a single character. -/
theorem isIdentifierStart_of_isWord {word after : List Char} {c : Char} {rest : List Char} (valid : isWord word = true)
    (same : word ++ after = c :: rest) : isIdentifierStart c = true := by
  cases word with
  | nil => cases valid
  | cons d word =>
    obtain ⟨rfl, -⟩ := List.cons.inj same
    rw [isWord, Bool.and_eq_true] at valid
    exact valid.1

/-- At most one token can be read from the front of a text. -/
theorem Kind.Reads.unique {kind other : Kind} {word after first rest : List Char} (reads : kind.Reads word after)
    (readsToo : other.Reads first rest) (same : word ++ after = first ++ rest) :
    kind = other ∧ word = first ∧ after = rest := by
  rcases reads_iff.mp reads with ⟨valid, ends, rfl⟩ | ⟨c, rfl, gap, start, rfl⟩
  · rcases reads_iff.mp readsToo with ⟨validToo, endsToo, rfl⟩ | ⟨d, rfl, -, start, -⟩
    · have sameWord : word = first := by
        rw [← takeWhile_of_isWord valid ends, same, takeWhile_of_isWord validToo endsToo]
      subst sameWord
      obtain rfl := List.append_cancel_left same
      exact ⟨rfl, rfl, rfl⟩
    · rw [isIdentifierStart_of_isWord valid same] at start
      cases start
  · rcases reads_iff.mp readsToo with ⟨validToo, -⟩ | ⟨d, rfl, -, -, rfl⟩
    · rw [isIdentifierStart_of_isWord validToo same.symm] at start
      cases start
    · obtain ⟨rfl, rfl⟩ := List.cons.inj same
      exact ⟨rfl, rfl, rfl⟩

/-- A token is what stands at its offset in the rest of a text that starts at a given byte offset. -/
def StandsIn (token : Token) (start : Nat) (text : List Char) : Prop :=
  ∃ before after, text = before ++ (token.text.toList ++ after) ∧
    start + Text.byteLength before = token.offset.toNat ∧ token.kind.Reads token.text.toList after

section StandsIn

variable {token : Token} {start : Nat} {front rest : List Char}

theorem StandsIn.behind (stands : token.StandsIn (start + Text.byteLength front) rest) :
    token.StandsIn start (front ++ rest) := by
  obtain ⟨before, after, rfl, offset, reads⟩ := stands
  refine ⟨front ++ before, after, by simp, ?_, reads⟩
  rw [Text.byteLength_append]
  omega

theorem StandsIn.of_behind (stands : token.StandsIn start (front ++ rest))
    (behind : start + Text.byteLength front ≤ token.offset.toNat) :
    token.StandsIn (start + Text.byteLength front) rest := by
  obtain ⟨before, after, split, offset, reads⟩ := stands
  obtain ⟨between, rfl, rfl⟩ := Text.split_of_byteLength_le split (by omega)
  rw [Text.byteLength_append] at offset
  exact ⟨between, after, rfl, by omega, reads⟩

theorem StandsIn.start_le {text : List Char} (stands : token.StandsIn start text) :
    start ≤ token.offset.toNat := by
  obtain ⟨before, -, -, offset, -⟩ := stands
  omega

/-- A token does not begin with a gap. -/
theorem StandsIn.behind_gap {c : Char} (gap : isGap c = true) (stands : token.StandsIn start (c :: rest)) :
    start + c.utf8Size ≤ token.offset.toNat := by
  obtain ⟨before, after, split, offset, reads⟩ := stands
  cases before with
  | nil =>
    obtain ⟨d, word, text⟩ := List.exists_cons_of_ne_nil reads.ne_nil
    rw [text] at split
    obtain ⟨rfl, -⟩ := List.cons.inj split
    rw [reads.solid c (text ▸ List.mem_cons_self ..)] at gap
    cases gap
  | cons d before =>
    obtain ⟨rfl, -⟩ := List.cons.inj split
    rw [Text.byteLength_cons] at offset
    omega

end StandsIn

/-- Tokens with their places in the rest of a text that starts at a given byte offset. Their spans are
not empty and do not overlap, and what they leave out are gaps. -/
structure PartitionFrom (start : Nat) (text : List Char) (tokens : List Token) : Prop where
  nonempty : ∀ token ∈ tokens, token.offset.toNat < token.stop
  ordered : tokens.Pairwise fun earlier later => earlier.stop ≤ later.offset.toNat
  placed : ∀ token ∈ tokens, token.StandsIn start text
  solid : ∀ token ∈ tokens, ∀ c ∈ token.text.toList, isGap c = false
  covered : ∀ before c after, text = before ++ c :: after → isGap c = false →
    ∃ token ∈ tokens, token.offset.toNat ≤ start + Text.byteLength before ∧
      start + Text.byteLength before < token.stop

theorem partitionFrom_nil {start : Nat} {tokens : List Token} : PartitionFrom start [] tokens ↔ tokens = [] := by
  constructor
  · intro partition
    cases tokens with
    | nil => rfl
    | cons token others =>
      obtain ⟨before, after, split, -, reads⟩ := partition.placed token (List.mem_cons_self ..)
      have empty : token.text.toList = [] := by simp_all
      exact absurd empty reads.ne_nil
  · rintro rfl
    exact ⟨nofun, .nil, nofun, nofun, fun before c after split => by simp at split⟩

theorem partitionFrom_gap {start : Nat} {c : Char} {rest : List Char} {tokens : List Token} (gap : isGap c = true) :
    PartitionFrom start (c :: rest) tokens ↔ PartitionFrom (start + c.utf8Size) rest tokens := by
  constructor
  · intro partition
    refine ⟨partition.nonempty, partition.ordered, fun token member => ?_, partition.solid, ?_⟩
    · have stands := partition.placed token member
      exact @StandsIn.of_behind token start [c] rest stands (stands.behind_gap gap)
    · rintro before d after rfl solid
      obtain ⟨token, member, lower, upper⟩ := partition.covered (c :: before) d after rfl solid
      rw [Text.byteLength_cons] at lower upper
      exact ⟨token, member, by omega, by omega⟩
  · intro partition
    refine ⟨partition.nonempty, partition.ordered, fun token member => ?_, partition.solid, ?_⟩
    · exact @StandsIn.behind token start [c] rest (partition.placed token member)
    · intro before d after split solid
      cases before with
      | nil =>
        obtain ⟨rfl, rfl⟩ := List.cons.inj split
        rw [solid] at gap
        cases gap
      | cons e before =>
        obtain ⟨rfl, rfl⟩ := List.cons.inj split
        obtain ⟨token, member, lower, upper⟩ := partition.covered before d after rfl solid
        rw [Text.byteLength_cons]
        exact ⟨token, member, by omega, by omega⟩

section Step

variable {start : Nat} {kind : Kind} {word after : List Char} {tokens others : List Token}

/-- What can be read from the front is the first token. -/
theorem PartitionFrom.first (partition : PartitionFrom start (word ++ after) tokens) (reads : kind.Reads word after) :
    ∃ others, tokens = ⟨kind, String.ofList word, .ofNatClamp start⟩ :: others := by
  obtain ⟨c, rest, rfl⟩ := List.exists_cons_of_ne_nil reads.ne_nil
  obtain ⟨token, member, lower, upper⟩ := partition.covered [] c (rest ++ after) rfl
    (reads.solid c (List.mem_cons_self ..))
  obtain ⟨before, behind, split, offset, readsToo⟩ := partition.placed token member
  rw [Text.byteLength_nil] at lower upper
  have atFront : before = [] := by
    by_contra some
    have := Text.byteLength_pos some
    omega
  subst atFront
  obtain ⟨rfl, same, -⟩ := reads.unique readsToo split
  have found : token = ⟨token.kind, String.ofList (c :: rest), .ofNatClamp start⟩ := by
    rw [Text.byteLength_nil, Nat.add_zero] at offset
    rw [same, String.ofList_toList, offset, ofNatClamp_toNat]
  rw [← found]
  cases tokens with
  | nil => cases member
  | cons first others =>
    rcases List.mem_cons.mp member with rfl | later
    · exact ⟨others, rfl⟩
    · -- Any token before it would lie before the start of the text.
      have order := (List.pairwise_cons.mp partition.ordered).1 token later
      have width := partition.nonempty first (List.mem_cons_self ..)
      have place := (partition.placed first (List.mem_cons_self ..)).start_le
      omega

theorem PartitionFrom.rest
    (partition : PartitionFrom start (word ++ after) (⟨kind, String.ofList word, .ofNatClamp start⟩ :: others)) :
    PartitionFrom (start + Text.byteLength word) after others := by
  obtain ⟨nonempty, ordered, placed, solid, covered⟩ := partition
  obtain ⟨later, ordered⟩ := List.pairwise_cons.mp ordered
  have fits : start < UInt32.size :=
    Nat.lt_of_le_of_lt (placed _ (List.mem_cons_self ..)).start_le (UInt32.toNat_lt _)
  rw [stop_ofList kind word fits] at later
  refine ⟨fun token member => nonempty token (List.mem_cons_of_mem _ member), ordered, fun token member => ?_,
    fun token member => solid token (List.mem_cons_of_mem _ member), ?_⟩
  · exact (placed token (List.mem_cons_of_mem _ member)).of_behind (later token member)
  · rintro before c behind rfl gap
    obtain ⟨token, member, lower, upper⟩ := covered (word ++ before) c behind (by simp) gap
    rw [Text.byteLength_append] at lower upper
    rcases List.mem_cons.mp member with rfl | member
    · rw [stop_ofList kind word fits] at upper
      omega
    · exact ⟨token, member, by omega, by omega⟩

theorem PartitionFrom.cons (reads : kind.Reads word after) (fits : start < UInt32.size)
    (partition : PartitionFrom (start + Text.byteLength word) after others) :
    PartitionFrom start (word ++ after) (⟨kind, String.ofList word, .ofNatClamp start⟩ :: others) := by
  obtain ⟨nonempty, ordered, placed, solid, covered⟩ := partition
  have width := Text.byteLength_pos reads.ne_nil
  have place := UInt32.toNat_ofNatClamp_of_lt fits
  have behind := stop_ofList kind word fits
  refine ⟨?_, List.pairwise_cons.mpr ⟨fun token member => ?_, ordered⟩, ?_, ?_, ?_⟩
  · rintro token (_ | ⟨_, member⟩)
    · rw [behind, place]
      exact Nat.lt_add_of_pos_right width
    · exact nonempty token member
  · rw [behind]
    exact (placed token member).start_le
  · rintro token (_ | ⟨_, member⟩)
    · exact ⟨[], after, by simp, place.symm, by simpa using reads⟩
    · exact (placed token member).behind
  · rintro token (_ | ⟨_, member⟩)
    · simpa using reads.solid
    · exact solid token member
  · intro before c rest split gap
    by_cases inside : Text.byteLength before < Text.byteLength word
    · exact ⟨_, List.mem_cons_self .., by rw [place]; omega, by rw [behind]; omega⟩
    · obtain ⟨between, rfl, rfl⟩ := Text.split_of_byteLength_le split (by omega)
      obtain ⟨token, member, lower, upper⟩ := covered between c rest rfl gap
      rw [Text.byteLength_append]
      exact ⟨token, List.mem_cons_of_mem _ member, by omega, by omega⟩

end Step

/-- A text has no partition but its scan. -/
theorem eq_scanFrom_of_partitionFrom (start : Nat) (text : List Char) :
    ∀ tokens, PartitionFrom start text tokens → tokens = scanFrom start text := by
  fun_induction scanFrom start text with
  | case1 start => exact fun _ => partitionFrom_nil.mp
  | case2 start c rest gap ih => exact fun tokens partition => ih tokens ((partitionFrom_gap gap).mp partition)
  | case3 start c rest gap startsWord word after ih =>
    intro tokens partition
    have split : c :: rest = word ++ after := by simp [word, after]
    rw [split] at partition
    obtain ⟨others, rfl⟩ := partition.first (reads_start startsWord rest)
    rw [ih others partition.rest]
  | case4 start c rest gap startsWord ih =>
    intro tokens partition
    have reads := reads_ofChar (Bool.eq_false_iff.mpr gap) (Bool.eq_false_iff.mpr startsWord) rest
    obtain ⟨others, rfl⟩ := @PartitionFrom.first start _ [c] rest tokens partition reads
    rw [← ih others (@PartitionFrom.rest start _ [c] rest others partition)]
    rfl

/-- As long as 32 bits can say where the tokens of a text start, its scan is a partition. -/
theorem partitionFrom_scanFrom (start : Nat) (text : List Char) :
    start + Text.byteLength text ≤ UInt32.size → PartitionFrom start text (scanFrom start text) := by
  fun_induction scanFrom start text with
  | case1 start => exact fun _ => partitionFrom_nil.mpr rfl
  | case2 start c rest gap ih =>
    intro short
    rw [Text.byteLength_cons] at short
    exact (partitionFrom_gap gap).mpr (ih (by omega))
  | case3 start c rest gap startsWord word after ih =>
    intro short
    have split : c :: rest = word ++ after := by simp [word, after]
    have reads : (Kind.ofWord word after.head?).Reads word after := reads_start startsWord rest
    have width := Text.byteLength_pos reads.ne_nil
    rw [split, Text.byteLength_append] at short
    rw [split]
    exact .cons reads (by omega) (ih (by omega))
  | case4 start c rest gap startsWord ih =>
    intro short
    have reads := reads_ofChar (Bool.eq_false_iff.mpr gap) (Bool.eq_false_iff.mpr startsWord) rest
    have width := c.utf8Size_pos
    rw [Text.byteLength_cons] at short
    exact @PartitionFrom.cons start _ [c] rest _ reads (by omega) (ih (by omega))

/-- The tokens of a text have places in it that do not overlap, each with the text of its token, which
is of the token's kind and cannot go on. What they leave out are gaps. No other tokens do all that. The
text must not be longer than 32 bits can say. -/
theorem scan_partitions (text : String) :
    (Text.byteLength text.toList ≤ UInt32.size → PartitionFrom 0 text.toList (scan text)) ∧
      ∀ tokens, PartitionFrom 0 text.toList tokens → tokens = scan text :=
  ⟨fun short => partitionFrom_scanFrom 0 text.toList (by omega), eq_scanFrom_of_partitionFrom 0 text.toList⟩

/-- A word of two bytes, a keyword that ends behind a tab, and a character that starts nothing. -/
theorem scan_partitions_mixed :
    let text := "é<? super\t#"
    let tokens : List Token := [⟨.identifier, "é", 0⟩, ⟨.openAngle, "<", 2⟩, ⟨.question, "?", 3⟩,
      ⟨.superWord, "super", 5⟩, ⟨.invalid, "#", 11⟩]
    Text.byteLength text.toList ≤ UInt32.size ∧ scan text = tokens ∧ PartitionFrom 0 text.toList tokens := by
  intro text tokens
  have short : Text.byteLength text.toList ≤ UInt32.size := by decide +kernel
  have scanned : scan text = tokens := by decide +kernel
  exact ⟨short, scanned, scanned ▸ (scan_partitions text).1 short⟩

theorem scan_two_words_behind (count : Nat) :
    scan (String.ofList (List.replicate count ' ' ++ ['x', ' ', 'y'])) =
      [⟨.identifier, "x", .ofNatClamp count⟩, ⟨.identifier, "y", .ofNatClamp (count + 2)⟩] := by
  have first : isIdentifierStart 'x' = true := by decide +kernel
  have second : isIdentifierStart 'y' = true := by decide +kernel
  have space : isIdentifierPart ' ' = false := by decide +kernel
  rw [scan, String.toList_ofList, scanFrom_spaces, scanFrom_start first,
    List.takeWhile_cons_of_neg (Bool.eq_false_iff.mp space), List.dropWhile_cons_of_neg (Bool.eq_false_iff.mp space),
    scanFrom_gap (by decide), scanFrom_start second, List.takeWhile_nil, List.dropWhile_nil, scanFrom, Nat.zero_add]
  rfl

/-- Behind as many blanks as there are offsets, two words are said to start at the same place. -/
theorem scan_not_partition_long :
    let text := String.ofList (List.replicate UInt32.size ' ' ++ ['x', ' ', 'y'])
    scan text = [⟨.identifier, "x", 4294967295⟩, ⟨.identifier, "y", 4294967295⟩] ∧
      ¬ PartitionFrom 0 text.toList (scan text) := by
  intro text
  have scanned : scan text = [⟨.identifier, "x", 4294967295⟩, ⟨.identifier, "y", 4294967295⟩] :=
    scan_two_words_behind UInt32.size
  refine ⟨scanned, fun partition => ?_⟩
  have ordered := partition.ordered
  rw [scanned, List.pairwise_pair] at ordered
  exact absurd ordered (by decide)

end Token

end ShortNames
