namespace ShortNames

/-- Membership in a table of closed intervals in ascending order. The walk is decided by the
first interval that does not end below the point, so a late interval costs nothing early on. -/
def inRanges (point : Nat) : List (Nat × Nat) → Bool
  | [] => false
  | (low, high) :: rest => if point ≤ high then decide (low ≤ point) else inRanges point rest

/-- Whether intervals are nonempty, start no lower than a given point, and lie above one another. -/
def ascendFrom (least : Nat) : List (Nat × Nat) → Bool
  | [] => true
  | (low, high) :: rest => decide (least ≤ low) && decide (low ≤ high) && ascendFrom (high + 1) rest

theorem le_of_ascendFrom {least : Nat} {ranges : List (Nat × Nat)} (ascending : ascendFrom least ranges = true) :
    ∀ range ∈ ranges, least ≤ range.1 := by
  induction ranges generalizing least with
  | nil => exact nofun
  | cons first rest ih =>
    simp only [ascendFrom, Bool.and_eq_true, decide_eq_true_eq] at ascending
    obtain ⟨⟨lower, proper⟩, later⟩ := ascending
    rintro range (_ | ⟨_, member⟩)
    · exact lower
    · have := ih later range member
      omega

/-- On an ascending table the early decision is membership in some interval. -/
theorem inRanges_iff {least : Nat} {ranges : List (Nat × Nat)} (ascending : ascendFrom least ranges = true)
    (point : Nat) : inRanges point ranges = true ↔ ∃ range ∈ ranges, range.1 ≤ point ∧ point ≤ range.2 := by
  induction ranges generalizing least with
  | nil => simp [inRanges]
  | cons first rest ih =>
    simp only [ascendFrom, Bool.and_eq_true, decide_eq_true_eq] at ascending
    obtain ⟨-, later⟩ := ascending
    simp only [inRanges, List.mem_cons, exists_eq_or_imp]
    split
    · rename_i bound
      rw [decide_eq_true_eq]
      constructor
      · exact fun lower => .inl ⟨lower, bound⟩
      · rintro (inside | ⟨range, member, lower, -⟩)
        · exact inside.1
        · have := le_of_ascendFrom later range member
          omega
    · rename_i above
      rw [ih later]
      exact ⟨.inr, fun inside => inside.resolve_left fun first => above first.2⟩

/-- The code points with the property White_Space, as ascending closed intervals. -/
def blankRanges : List (Nat × Nat) :=
  [(9, 13), (32, 32), (133, 133), (160, 160), (5760, 5760), (8192, 8202), (8232, 8233),
   (8239, 8239), (8287, 8287), (12288, 12288)]

def isBlank (c : Char) : Bool :=
  inRanges c.toNat blankRanges

namespace Text

def trimStart (text : List Char) : List Char :=
  text.dropWhile isBlank

def trimEnd (text : List Char) : List Char :=
  (text.reverse.dropWhile isBlank).reverse

def trim (text : List Char) : List Char :=
  trimEnd (trimStart text)

/-- Trimming the start loses exactly the leading blanks. -/
theorem takeWhile_append_trimStart (text : List Char) :
    text.takeWhile isBlank ++ trimStart text = text :=
  List.takeWhile_append_dropWhile

theorem trimEnd_reverse (text : List Char) : trimEnd text.reverse = (trimStart text).reverse := by
  simp only [trimEnd, trimStart, List.reverse_reverse]

/-- The number of bytes that a text takes in UTF-8. -/
def byteLength : List Char → Nat
  | [] => 0
  | c :: rest => c.utf8Size + byteLength rest

@[simp] theorem byteLength_nil : byteLength [] = 0 := rfl

@[simp] theorem byteLength_cons (c : Char) (text : List Char) :
    byteLength (c :: text) = c.utf8Size + byteLength text := rfl

@[simp] theorem byteLength_append (first second : List Char) :
    byteLength (first ++ second) = byteLength first + byteLength second := by
  induction first with
  | nil => simp
  | cons c rest ih => simp [ih, Nat.add_assoc]

theorem byteLength_spaces (count : Nat) : byteLength (List.replicate count ' ') = count := by
  induction count with
  | zero => rfl
  | succ count ih =>
    have byte : ' '.utf8Size = 1 := by decide
    rw [List.replicate_succ, byteLength_cons, ih, byte, Nat.add_comm]

/-- What follows a word that stands at the start of a text and has a blank right behind it. -/
def afterWord? (word text : List Char) : Option (List Char) :=
  match word.isPrefixOf? text with
  | some (c :: rest) => if isBlank c then some (c :: rest) else none
  | _ => none

/-- What stands before the last place of a mark in a text. A text without the mark has nothing there. -/
def beforeLast (mark : Char) (text : List Char) : List Char :=
  (text.reverse.dropWhile (· != mark)).tail.reverse

/-- What stands before one of the places of a mark in a text, counted from zero, or all of the text
if there are not so many. -/
def beforeNth (mark : Char) : Nat → List Char → List Char
  | _, [] => []
  | 0, c :: rest => if c = mark then [] else c :: beforeNth mark 0 rest
  | count + 1, c :: rest => c :: beforeNth mark (if c = mark then count else count + 1) rest

section Before

variable {mark : Char} {word : List Char}

theorem dropWhile_ne_append (absent : mark ∉ word) (rest : List Char) :
    (word ++ rest).dropWhile (· != mark) = rest.dropWhile (· != mark) := by
  refine List.dropWhile_append_of_pos fun c member => bne_iff_ne.mpr ?_
  rintro rfl
  exact absent member

theorem beforeLast_of_not_mem (absent : mark ∉ word) : beforeLast mark word = [] := by
  have absentToo : mark ∉ word.reverse := fun member => absent (List.mem_reverse.mp member)
  rw [beforeLast, ← List.append_nil word.reverse, dropWhile_ne_append absentToo]
  rfl

theorem beforeLast_append (absent : mark ∉ word) (front : List Char) :
    beforeLast mark (front ++ mark :: word) = front := by
  have absentToo : mark ∉ word.reverse := fun member => absent (List.mem_reverse.mp member)
  rw [beforeLast, List.reverse_append, List.reverse_cons, List.append_assoc, List.singleton_append,
    dropWhile_ne_append absentToo, List.dropWhile_cons_of_neg (by simp), List.tail_cons, List.reverse_reverse]

/-- A word without the mark stands before whatever place of it. -/
theorem beforeNth_append (absent : mark ∉ word) (count : Nat) (rest : List Char) :
    beforeNth mark count (word ++ rest) = word ++ beforeNth mark count rest := by
  induction word with
  | nil => rfl
  | cons c word ih =>
    have other : c ≠ mark := fun same => absent (same ▸ List.mem_cons_self ..)
    have later := ih fun member => absent (List.mem_cons_of_mem c member)
    cases count <;> simp [beforeNth, other, later]

end Before

/-- A line without the carriage return at its end, if there is one. -/
def dropReturn (line : List Char) : List Char :=
  (['\r'].isSuffixOf? line).getD line

/-- The lines of a text. A line feed ends a line, together with a carriage return right before it.
What stands behind the last line feed is a line only if it is not empty. -/
def lines (text : String) : List String :=
  let pieces := text.toList.splitOn '\n'
  let unended := pieces.getLast?.toList.filter (!·.isEmpty)
  (pieces.dropLast.map dropReturn ++ unended).map String.ofList

end Text

end ShortNames
