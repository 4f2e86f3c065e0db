import ShortNames.Proofs.Characters
import ShortNames.Proofs.Grammar

namespace ShortNames

/-- A word that is no keyword of the grammar, whatever stands behind it. -/
def isPlainWord (text : String) : Bool :=
  isIdentifier text && text != "extends" && text != "super"

theorem isPlainWord_iff {text : String} :
    isPlainWord text = true ↔ isIdentifier text = true ∧ text ≠ "extends" ∧ text ≠ "super" := by
  simp only [isPlainWord, Bool.and_eq_true, bne_iff_ne, and_assoc]

namespace Token

/-- What the grammar sees of a text. -/
def terminals (text : List Char) : List Terminal :=
  (scanFrom 0 text).map Token.terminal

/-- A word ends before such a text. -/
def Breaks (after : List Char) : Prop :=
  ∀ c, after.head? = some c → isIdentifierPart c = false

theorem Breaks.takeWhile_eq_nil {after : List Char} (ends : Breaks after) :
    after.takeWhile isIdentifierPart = [] := by
  cases after with
  | nil => rfl
  | cons d after => simp [ends d rfl]

theorem Breaks.dropWhile_eq_self {after : List Char} (ends : Breaks after) :
    after.dropWhile isIdentifierPart = after := by
  cases after with
  | nil => rfl
  | cons d after => simp [ends d rfl]

/-- What is left when a word is taken as far as it goes. -/
theorem breaks_dropWhile (text : List Char) : Breaks (text.dropWhile isIdentifierPart) := by
  intro c found
  have stopped := List.head?_dropWhile_not isIdentifierPart text
  rwa [found] at stopped

theorem scanFrom_gap {c : Char} (gap : isGap c = true) (offset : Nat) (rest : List Char) :
    scanFrom offset (c :: rest) = scanFrom (offset + c.utf8Size) rest := by
  rw [scanFrom, if_pos gap]

theorem scanFrom_start {c : Char} (start : isIdentifierStart c = true) (offset : Nat) (rest : List Char) :
    scanFrom offset (c :: rest) =
      ⟨.ofWord (c :: rest.takeWhile isIdentifierPart) (rest.dropWhile isIdentifierPart).head?,
        String.ofList (c :: rest.takeWhile isIdentifierPart), .ofNatClamp offset⟩ ::
        scanFrom (offset + Text.byteLength (c :: rest.takeWhile isIdentifierPart))
          (rest.dropWhile isIdentifierPart) := by
  have gap : isGap c = false := isGap_eq_false_of_part (isIdentifierPart_of_start start)
  rw [scanFrom, if_neg (Bool.eq_false_iff.mp gap), if_pos start]

theorem scanFrom_mark {c : Char} (gap : isGap c = false) (start : isIdentifierStart c = false) (offset : Nat)
    (rest : List Char) :
    scanFrom offset (c :: rest) =
      ⟨.ofChar c, String.singleton c, .ofNatClamp offset⟩ :: scanFrom (offset + c.utf8Size) rest := by
  rw [scanFrom, if_neg (Bool.eq_false_iff.mp gap), if_neg (Bool.eq_false_iff.mp start)]

/-- Gaps in front only move what stands behind them. -/
theorem scanFrom_gaps {gaps : List Char} (all : ∀ c ∈ gaps, isGap c = true) (offset : Nat) (rest : List Char) :
    scanFrom offset (gaps ++ rest) = scanFrom (offset + Text.byteLength gaps) rest := by
  induction gaps generalizing offset with
  | nil => rfl
  | cons c gaps ih =>
    rw [List.cons_append, scanFrom_gap (all c (List.mem_cons_self ..)),
      ih fun d member => all d (List.mem_cons_of_mem _ member), Text.byteLength_cons, Nat.add_assoc]

theorem scanFrom_spaces (offset count : Nat) (rest : List Char) :
    scanFrom offset (List.replicate count ' ' ++ rest) = scanFrom (offset + count) rest := by
  have all : ∀ c ∈ List.replicate count ' ', isGap c = true := by
    intro c member
    rw [List.eq_of_mem_replicate member]
    decide
  rw [scanFrom_gaps all, Text.byteLength_spaces]

/-- Where a text starts does not matter to the grammar. -/
theorem scanFrom_terminals (offset : Nat) (text : List Char) :
    (scanFrom offset text).map Token.terminal = terminals text := by
  have shifted : ∀ first second, (scanFrom first text).map Token.terminal =
      (scanFrom second text).map Token.terminal := by
    intro first
    fun_induction scanFrom first text with
    | case1 offset =>
      intro second
      simp [scanFrom]
    | case2 offset c rest gap ih =>
      intro second
      rw [scanFrom_gap gap second]
      exact ih _
    | case3 offset c rest gap start word after ih =>
      intro second
      rw [scanFrom_start start second, List.map_cons, List.map_cons, ih]
      rfl
    | case4 offset c rest gap start ih =>
      intro second
      rw [scanFrom_mark (Bool.eq_false_iff.mpr gap) (Bool.eq_false_iff.mpr start) second, List.map_cons,
        List.map_cons, ih]
      rfl
  exact shifted offset 0

@[simp] theorem terminals_nil : terminals [] = [] := by
  simp [terminals, scanFrom]

theorem terminals_gap {c : Char} (gap : isGap c = true) (rest : List Char) :
    terminals (c :: rest) = terminals rest := by
  rw [terminals, scanFrom_gap gap, scanFrom_terminals]

theorem terminals_start {c : Char} (start : isIdentifierStart c = true) (rest : List Char) :
    terminals (c :: rest) =
      Token.terminal ⟨.ofWord (c :: rest.takeWhile isIdentifierPart) (rest.dropWhile isIdentifierPart).head?,
        String.ofList (c :: rest.takeWhile isIdentifierPart), 0⟩ ::
        terminals (rest.dropWhile isIdentifierPart) := by
  rw [terminals, scanFrom_start start, List.map_cons, scanFrom_terminals]
  rfl

theorem terminals_mark {c : Char} (gap : isGap c = false) (start : isIdentifierStart c = false)
    (rest : List Char) :
    terminals (c :: rest) = Token.terminal ⟨.ofChar c, String.singleton c, 0⟩ :: terminals rest := by
  rw [terminals, scanFrom_mark gap start, List.map_cons, scanFrom_terminals]
  rfl

/-- A mark stands for itself, whatever is around it. -/
theorem terminals_ofChar {c : Char} (valid : Kind.ofChar c ≠ .invalid) (rest : List Char) :
    terminals (c :: rest) = Token.terminal ⟨.ofChar c, String.singleton c, 0⟩ :: terminals rest := by
  have foreign := foreign_of_ofChar valid
  exact terminals_mark foreign.2.1 (isIdentifierStart_eq_false foreign.1) rest

/-- A word reaches to its end if what follows cannot continue it. -/
theorem terminals_word {word after : List Char} (valid : isWord word = true)
    (ends : Breaks after) :
    terminals (word ++ after) =
      Token.terminal ⟨.ofWord word after.head?, String.ofList word, 0⟩ :: terminals after := by
  cases word with
  | nil => cases valid
  | cons c rest =>
    simp only [isWord, Bool.and_eq_true, List.all_eq_true] at valid
    rw [List.cons_append, terminals_start valid.1, List.takeWhile_append_of_pos valid.2,
      List.dropWhile_append_of_pos valid.2, ends.takeWhile_eq_nil, ends.dropWhile_eq_self, List.append_nil]

theorem ofWord_of_plain {text : String} (plain : isPlainWord text = true) (next : Option Char) :
    Kind.ofWord text.toList next = .identifier := by
  obtain ⟨-, differs⟩ := isPlainWord_iff.mp plain
  have notExtends : text.toList ≠ "extends".toList := fun same => differs.1 (String.toList_injective same)
  have notSuper : text.toList ≠ "super".toList := fun same => differs.2 (String.toList_injective same)
  rw [Kind.ofWord, if_neg (fun both => notExtends both.1), if_neg (fun both => notSuper both.1)]

theorem terminals_plain {text : String} (plain : isPlainWord text = true) {after : List Char}
    (ends : Breaks after) :
    terminals (text.toList ++ after) = .word text :: terminals after := by
  have valid : isWord text.toList = true := (isPlainWord_iff.mp plain).1
  rw [terminals_word valid ends, ofWord_of_plain plain, String.ofList_toList]
  rfl

/-- Induction along a text as it is scanned: what is between tokens and a mark go one character
at a time, a word goes as a whole. -/
@[elab_as_elim]
theorem scanInduction {motive : List Char → Prop} (nil : motive [])
    (gap : ∀ c rest, isGap c = true → motive rest → motive (c :: rest))
    (word : ∀ c rest, isIdentifierStart c = true → motive (rest.dropWhile isIdentifierPart) →
      motive (c :: rest))
    (mark : ∀ c rest, isGap c = false → isIdentifierStart c = false → motive rest → motive (c :: rest))
    (text : List Char) : motive text := by
  refine scanFrom.induct (fun _ text => motive text) (fun _ => nil) ?_ ?_ ?_ 0 text
  · intro _ c rest isGap ih
    exact gap c rest isGap ih
  · intro _ c rest _ isStart _ _ ih
    exact word c rest isStart ih
  · intro _ c rest notGap notStart ih
    exact mark c rest (Bool.eq_false_iff.mpr notGap) (Bool.eq_false_iff.mpr notStart) ih

/-- A blank text has no token that could start a reference. -/
theorem terminals_of_blank {text : List Char} (blank : ∀ c ∈ text, isBlank c = true) :
    ∀ terminal ∈ terminals text, terminal = .invalid := by
  induction text using scanInduction with
  | nil => simp
  | gap c rest gap ih =>
    rw [terminals_gap gap]
    exact ih fun d member => blank d (List.mem_cons_of_mem _ member)
  | word c rest start ih =>
    have foreign := isIdentifierPart_eq_false_of_isBlank (blank c (List.mem_cons_self ..))
    rw [isIdentifierPart_of_start start] at foreign
    cases foreign
  | mark c rest gap start ih =>
    rw [terminals_mark gap start, ofChar_eq_invalid_of_isBlank (blank c (List.mem_cons_self ..))]
    intro terminal member
    rcases List.mem_cons.mp member with rfl | member
    · rfl
    · exact ih (fun d inRest => blank d (List.mem_cons_of_mem _ inRest)) terminal member

/-- A word that is read as a word is plain. A keyword could be read so only right before a
character that cannot be read. -/
theorem isPlainWord_of_terminal {word after : List Char} (valid : isWord word = true)
    (ends : Breaks after) (readable : .invalid ∉ terminals after)
    {text : String} (same : Token.terminal ⟨.ofWord word after.head?, String.ofList word, 0⟩ = .word text) :
    isPlainWord text = true := by
  unfold Kind.ofWord at same
  by_cases keyword : word = "extends".toList ∨ word = "super".toList
  · cases after with
    | nil => rcases keyword with rfl | rfl <;> cases same
    | cons d after =>
      by_cases large : 128 ≤ d.toNat
      · have start := isIdentifierStart_eq_false (ends d rfl)
        rw [terminals_mark (isGap_eq_false_of_large large) start, ofChar_eq_invalid_of_large large] at readable
        exact absurd (List.mem_cons_self ..) readable
      · have ended : endsKeyword (some d) = true := by
          simp only [endsKeyword, Bool.or_eq_true, decide_eq_true_eq]
          exact .inl (by omega)
        rw [List.head?_cons] at same
        rcases keyword with rfl | rfl <;> simp [ended, Token.terminal] at same
  · have notExtends : word ≠ "extends".toList := fun same => keyword (.inl same)
    have notSuper : word ≠ "super".toList := fun same => keyword (.inr same)
    rw [if_neg (fun both => notExtends both.1), if_neg (fun both => notSuper both.1)] at same
    cases same
    have differs : String.ofList word ≠ "extends" ∧ String.ofList word ≠ "super" :=
      ⟨fun same => notExtends (by rw [← same, String.toList_ofList]),
        fun same => notSuper (by rw [← same, String.toList_ofList])⟩
    exact isPlainWord_iff.mpr ⟨by rwa [isIdentifier, String.toList_ofList], differs⟩

/-- In a text that can be read throughout, every word is plain. -/
theorem isPlainWord_of_mem {text : List Char} (readable : .invalid ∉ terminals text) {word : String}
    (member : .word word ∈ terminals text) : isPlainWord word = true := by
  induction text using scanInduction with
  | nil => simp at member
  | gap c rest gap ih =>
    rw [terminals_gap gap] at readable member
    exact ih readable member
  | word c rest start ih =>
    rw [terminals_start start] at readable member
    have readableAfter := fun found => readable (List.mem_cons_of_mem _ found)
    rcases List.mem_cons.mp member with same | member
    · have valid : isWord (c :: rest.takeWhile isIdentifierPart) = true := by
        simp [isWord, start]
      exact isPlainWord_of_terminal valid (breaks_dropWhile rest) readableAfter same.symm
    · exact ih readableAfter member
  | mark c rest gap start ih =>
    rw [terminals_mark gap start] at readable member
    have readableAfter := fun found => readable (List.mem_cons_of_mem _ found)
    rcases List.mem_cons.mp member with same | member
    · unfold Kind.ofChar at same
      split at same <;> cases same
    · exact ih readableAfter member

end Token

end ShortNames
