import ShortNames.Proofs.Grouping
import ShortNames.Proofs.NamePieces

namespace ShortNames

/-- What can stand between the dots of a name: a text that is not empty and has no dot of its own. -/
def IsPiece (piece : String) : Prop :=
  piece ≠ "" ∧ '.' ∉ piece.toList

instance (piece : String) : Decidable (IsPiece piece) :=
  inferInstanceAs (Decidable (piece ≠ "" ∧ '.' ∉ piece.toList))

theorem not_mem_of_mem_splitOn {text word : List Char} (member : word ∈ text.splitOn '.') : '.' ∉ word := by
  induction text generalizing word with
  | nil =>
    rw [List.splitOn_nil, List.mem_singleton] at member
    simp [member]
  | cons c rest ih =>
    rw [List.splitOn_cons_eq_if_modifyHead] at member
    split at member
    · rcases List.mem_cons.mp member with rfl | inRest
      · exact List.not_mem_nil
      · exact ih inRest
    · rename_i plain
      cases cut : rest.splitOn '.' with
      | nil => exact absurd cut (List.splitOn_ne_nil '.' rest)
      | cons first others =>
        rw [cut] at ih member
        rcases List.mem_cons.mp member with rfl | inRest
        · have foreign : '.' ≠ c := fun same => plain (beq_iff_eq.mpr same.symm)
          simpa [foreign] using ih (List.mem_cons_self ..)
        · exact ih (List.mem_cons_of_mem _ inRest)

section Pieces

variable {pieces : List String}

theorem splitOn_dotted (apart : ∀ piece ∈ pieces, '.' ∉ piece.toList) (nonempty : pieces ≠ []) :
    (dotted pieces).toList.splitOn '.' = pieces.map String.toList := by
  rw [dotted, String.toList_intercalate]
  exact List.splitOn_intercalate '.' (by simpa using apart) (by simpa using nonempty)

theorem dotted_eq_ofList (pieces : List String) :
    dotted pieces = String.ofList (['.'].intercalate (pieces.map String.toList)) := by
  rw [← String.toList_inj, String.toList_ofList, dotted, String.toList_intercalate]
  rfl

/-- Every text is some pieces with dots between them, of which several may be empty. -/
theorem exists_pieces (name : String) :
    ∃ pieces, pieces ≠ [] ∧ (∀ piece ∈ pieces, '.' ∉ piece.toList) ∧ dotted pieces = name := by
  refine ⟨(name.toList.splitOn '.').map String.ofList, ?_, ?_, ?_⟩
  · rw [ne_eq, List.map_eq_nil_iff]
    exact List.splitOn_ne_nil '.' name.toList
  · intro piece member
    obtain ⟨word, inSplit, rfl⟩ := List.mem_map.mp member
    simpa using not_mem_of_mem_splitOn inSplit
  · rw [dotted_eq_ofList, List.map_map]
    simp [Function.comp_def, List.intercalate_splitOn]

theorem dotted_ne_empty (proper : ∀ piece ∈ pieces, IsPiece piece) (nonempty : pieces ≠ []) :
    dotted pieces ≠ "" := by
  intro empty
  have cut := splitOn_dotted (fun piece member => (proper piece member).2) nonempty
  rw [empty] at cut
  cases pieces with
  | nil => exact nonempty rfl
  | cons piece rest =>
    have first : [] = piece.toList := (List.cons.inj cut).1
    exact (proper piece (List.mem_cons_self ..)).1 (String.toList_eq_nil_iff.mp first.symm)

theorem dotted_take_drop {count : Nat} (positive : 0 < count) (inside : count < pieces.length) :
    dotted (pieces.take count) ++ "." ++ dotted (pieces.drop count) = dotted pieces := by
  have front : pieces.take count ≠ [] := List.ne_nil_of_length_pos (by rw [List.length_take]; omega)
  have back : pieces.drop count ≠ [] := List.ne_nil_of_length_pos (by rw [List.length_drop]; omega)
  rw [← dotted_append front back, List.take_append_drop]

theorem count_dotted (apart : ∀ piece ∈ pieces, '.' ∉ piece.toList) :
    (dotted pieces).toList.count '.' = pieces.length - 1 := by
  induction pieces with
  | nil => rfl
  | cons piece rest ih =>
    have first : piece.toList.count '.' = 0 := List.count_eq_zero.mpr (apart piece (List.mem_cons_self ..))
    have later := ih fun other member => apart other (List.mem_cons_of_mem _ member)
    cases rest with
    | nil => simpa [dotted] using first
    | cons next rest =>
      rw [toList_dotted_cons piece (List.cons_ne_nil next rest), List.count_append, first, List.count_cons_self, later]
      simp

/-- A pin covers a key exactly if the pieces of the pin are the first pieces of the key. -/
theorem covers_dotted_iff {pins : List String} (proper : ∀ pin ∈ pins, IsPiece pin) (nonempty : pins ≠ [])
    (apart : ∀ piece ∈ pieces, '.' ∉ piece.toList) :
    covers (dotted pins) (dotted pieces) = true ↔ pins <+: pieces := by
  rw [covers_iff]
  constructor
  · intro covered
    have long : pieces ≠ [] := by
      rintro rfl
      rcases covered with same | ⟨rest, joined⟩
      · exact dotted_ne_empty proper nonempty same.symm
      · simp [dotted] at joined
    -- The dot behind the pin is one at which the key is cut, so the pin ends where a piece does.
    rw [← List.prefix_map_iff_of_injective (fun _ _ => String.toList_injective),
      ← splitOn_dotted (fun pin member => (proper pin member).2) nonempty, ← splitOn_dotted apart long]
    rcases covered with same | ⟨rest, joined⟩
    · exact ⟨[], by rw [same, List.append_nil]⟩
    · rw [← joined, List.append_assoc, List.singleton_append, List.splitOn_append_cons_self]
      exact List.prefix_append ..
  · rintro ⟨rest, rfl⟩
    cases rest with
    | nil => exact .inl (by rw [List.append_nil])
    | cons next rest =>
      have joined := dotted_append nonempty (List.cons_ne_nil next rest)
      exact .inr ⟨(dotted (next :: rest)).toList, by simp [joined]⟩

/-- The last dot of a text of pieces is the one before its last piece. -/
theorem beforeLast_dotted (apart : ∀ piece ∈ pieces, '.' ∉ piece.toList) (nonempty : pieces ≠ []) :
    Text.beforeLast '.' (dotted pieces).toList = (dotted pieces.dropLast).toList := by
  obtain ⟨front, last, rfl⟩ := (List.eq_nil_or_concat pieces).resolve_left nonempty
  have lastApart : '.' ∉ last.toList := apart last (by simp)
  rw [List.concat_eq_append, List.dropLast_concat]
  cases front with
  | nil => simpa [dotted] using Text.beforeLast_of_not_mem lastApart
  | cons piece rest =>
    rw [dotted_append (List.cons_ne_nil piece rest) (List.cons_ne_nil last [])]
    simpa [dotted] using Text.beforeLast_append lastApart _

/-- A dot of a text of pieces has as many pieces before it as dots, and one more. -/
theorem beforeNth_dotted (apart : ∀ piece ∈ pieces, '.' ∉ piece.toList) (count : Nat) :
    Text.beforeNth '.' count (dotted pieces).toList = (dotted (pieces.take (count + 1))).toList := by
  induction pieces generalizing count with
  | nil => rw [List.take_nil]; rfl
  | cons piece rest ih =>
    have first : '.' ∉ piece.toList := apart piece (List.mem_cons_self ..)
    have later := ih fun other member => apart other (List.mem_cons_of_mem _ member)
    cases rest with
    | nil => simpa [dotted, Text.beforeNth] using Text.beforeNth_append first count []
    | cons next rest =>
      rw [toList_dotted_cons piece (List.cons_ne_nil next rest), Text.beforeNth_append first]
      cases count with
      | zero => simp [dotted, Text.beforeNth]
      | succ count =>
        rw [List.take_succ_cons, toList_dotted_cons piece (by simp), ← later]
        simp [Text.beforeNth]

end Pieces

namespace Layout

/-- The key of a name is made of its leading pieces. The last piece is never among them. -/
theorem keyOf_dotted (layout : Layout) {pieces : List String} (apart : ∀ piece ∈ pieces, '.' ∉ piece.toList)
    (nonempty : pieces ≠ []) :
    layout.keyOf (dotted pieces) = dotted (pieces.take (min (max layout.depth 1) (pieces.length - 1))) := by
  have count : max layout.depth 1 - 1 + 1 = max layout.depth 1 := by omega
  have apartToo : ∀ piece ∈ pieces.dropLast, '.' ∉ piece.toList := fun piece member =>
    apart piece ((List.dropLast_sublist pieces).subset member)
  rw [keyOf, beforeLast_dotted apart nonempty, beforeNth_dotted apartToo, String.ofList_toList, count,
    List.dropLast_eq_take, List.take_take]

theorem keyOf_of_no_dot (layout : Layout) {name : String} (noDot : '.' ∉ name.toList) : layout.keyOf name = "" := by
  have apart : ∀ piece ∈ [name], '.' ∉ piece.toList := by simpa using noDot
  have alone := layout.keyOf_dotted apart (List.cons_ne_nil name [])
  simpa [dotted] using alone

/-- A key is what stands before one of the dots of a name: the one that the depth asks for, or the
last if there are not so many. -/
theorem keyOf_before_dot (layout : Layout) {name : String} (hasDot : '.' ∈ name.toList) :
    ∃ rest, name = layout.keyOf name ++ "." ++ rest ∧
      (layout.keyOf name).toList.count '.' + 1 = min (max layout.depth 1) (name.toList.count '.') := by
  obtain ⟨pieces, nonempty, apart, rfl⟩ := exists_pieces name
  have several : 0 < pieces.length - 1 := by
    rw [← count_dotted apart]
    exact List.count_pos_iff.mpr hasDot
  have frontApart := fun piece member => apart piece
    (List.mem_of_mem_take (i := min (max layout.depth 1) (pieces.length - 1)) member)
  rw [layout.keyOf_dotted apart nonempty]
  refine ⟨_, (dotted_take_drop (by omega) (by omega)).symm, ?_⟩
  rw [count_dotted frontApart, count_dotted apart, List.length_take]
  omega

/-- Before a dot at the end of a text, only the depth limits the key. -/
theorem keyOf_dotted_dot (layout : Layout) {front : List String} (apart : ∀ piece ∈ front, '.' ∉ piece.toList) :
    layout.keyOf (dotted front ++ ".") = dotted (front.take (max layout.depth 1)) := by
  cases front with
  | nil =>
    -- The empty text before the dot is one empty piece here and none there, and both are written alike.
    have lone : layout.keyOf (dotted ["", ""]) = _ := layout.keyOf_dotted (by simp) (by simp)
    have one : min (max layout.depth 1) 1 = 1 := by omega
    simpa [dotted, one] using lone
  | cons piece rest =>
    have joined : dotted (piece :: rest ++ [""]) = dotted (piece :: rest) ++ "." := by
      rw [dotted_append (List.cons_ne_nil piece rest) (List.cons_ne_nil "" [])]
      exact String.append_empty
    have allApart : ∀ other ∈ piece :: rest ++ [""], '.' ∉ other.toList := by
      simpa [or_imp, forall_and] using apart
    rw [← joined, layout.keyOf_dotted allApart (by simp), List.length_append, List.length_singleton, Nat.add_sub_cancel,
      List.take_append_of_le_length (Nat.min_le_right ..), ← List.take_eq_take_min]

/-- The key at a lower depth can be told from the key at a higher one. -/
theorem keyOf_keyOf {coarse fine : Layout} (deeper : coarse.depth ≤ fine.depth) (name : String) :
    coarse.keyOf (fine.keyOf name ++ ".") = coarse.keyOf name := by
  obtain ⟨pieces, nonempty, apart, rfl⟩ := exists_pieces name
  have lengths : min (max coarse.depth 1) (min (max fine.depth 1) (pieces.length - 1)) =
      min (max coarse.depth 1) (pieces.length - 1) := by omega
  rw [fine.keyOf_dotted apart nonempty, coarse.keyOf_dotted apart nonempty,
    coarse.keyOf_dotted_dot fun piece member => apart piece (List.mem_of_mem_take member), List.take_take, lengths]

theorem keyOf_eq_of_depth_le {coarse fine : Layout} (deeper : coarse.depth ≤ fine.depth) {first second : String}
    (same : fine.keyOf first = fine.keyOf second) : coarse.keyOf first = coarse.keyOf second := by
  rw [← keyOf_keyOf deeper first, same, keyOf_keyOf deeper second]

/-- Names that share a group at some depth share one at every lower depth. -/
theorem groupNames_of_depth_le {coarse fine : Layout} (deeper : coarse.depth ≤ fine.depth) {names group : List String}
    (member : group ∈ ImportListing.groupNames fine names) :
    ∃ wider ∈ ImportListing.groupNames coarse names, ∀ name ∈ group, name ∈ wider := by
  obtain ⟨key, inKeys, rfl⟩ := ImportListing.mem_groupNames.mp member
  obtain ⟨first, inNames, rfl⟩ := List.mem_map.mp inKeys
  have inCoarse := ImportListing.mem_groupNames.mpr ⟨coarse.keyOf first, List.mem_map_of_mem inNames, rfl⟩
  refine ⟨_, inCoarse, fun name inGroup => ?_⟩
  obtain ⟨inNamesToo, same⟩ := ImportListing.mem_run.mp inGroup
  exact ImportListing.mem_run.mpr ⟨inNamesToo, keyOf_eq_of_depth_le deeper same⟩

/-- Keys and pins go by whole pieces. The key of a name is its leading pieces, as many as the depth
allows but without the last; a pin covers it exactly if all pieces of the pin are among these from the
first on, so never by a piece that only begins alike. A greater depth splits groups and joins none. In
any text the key ends at a dot of the text, the one that the depth asks for or the last. -/
theorem groups_by_pieces (layout : Layout) :
    (∀ pieces : List String, pieces ≠ [] → (∀ piece ∈ pieces, IsPiece piece) →
      layout.keyOf (dotted pieces) = dotted (pieces.take (min (max layout.depth 1) (pieces.length - 1))) ∧
      ∀ pins : List String, pins ≠ [] → (∀ pin ∈ pins, IsPiece pin) →
        (covers (dotted pins) (layout.keyOf (dotted pieces)) = true ↔
          pins.length ≤ min (max layout.depth 1) (pieces.length - 1) ∧ pieces.take pins.length = pins)) ∧
    (∀ finer : Layout, layout.depth ≤ finer.depth →
      (∀ first second, finer.keyOf first = finer.keyOf second → layout.keyOf first = layout.keyOf second) ∧
      ∀ names, ∀ group ∈ ImportListing.groupNames finer names,
        ∃ wider ∈ ImportListing.groupNames layout names, ∀ name ∈ group, name ∈ wider) ∧
    ∀ name : String, ('.' ∉ name.toList → layout.keyOf name = "") ∧
      ('.' ∈ name.toList → ∃ rest, name = layout.keyOf name ++ "." ++ rest ∧
        (layout.keyOf name).toList.count '.' + 1 = min (max layout.depth 1) (name.toList.count '.')) := by
  refine ⟨fun pieces nonempty proper => ?_, fun finer deeper => ⟨?_, ?_⟩, fun name => ?_⟩
  · have apart : ∀ piece ∈ pieces, '.' ∉ piece.toList := fun piece member => (proper piece member).2
    have key := layout.keyOf_dotted apart nonempty
    refine ⟨key, fun pins some properPins => ?_⟩
    rw [key, covers_dotted_iff properPins some fun piece member => apart piece (List.mem_of_mem_take member),
      List.prefix_take_iff, List.prefix_iff_eq_take, eq_comm, and_comm]
  · exact fun first second same => keyOf_eq_of_depth_le deeper same
  · exact fun names group member => groupNames_of_depth_le deeper member
  · exact ⟨layout.keyOf_of_no_dot, layout.keyOf_before_dot⟩

/-- At depth two the key has two pieces. Pins of both and of the first alone cover it, a pin of three and
one of `java` do not. A name with the same key at depth two has it at depth zero as well. -/
theorem groups_by_pieces_javax :
    let layout : Layout := { depth := 2 }
    let pieces := ["javax", "swing", "text", "Document"]
    let key := layout.keyOf (dotted pieces)
    key = "javax.swing" ∧ covers (dotted ["javax", "swing"]) key = true ∧ covers (dotted ["javax"]) key = true ∧
      covers (dotted ["java"]) key = false ∧ covers (dotted ["javax", "swing", "text"]) key = false ∧
      ({ depth := 0 } : Layout).keyOf (dotted pieces) = ({ depth := 0 } : Layout).keyOf "javax.swing.Icon" := by
  intro layout pieces key
  obtain ⟨named, -, -⟩ := groups_by_pieces layout
  obtain ⟨isKey, covered⟩ := named pieces (by decide) (by decide)
  obtain ⟨-, coarser, -⟩ := groups_by_pieces { depth := 0 }
  refine ⟨isKey, ?_, ?_, ?_, ?_, (coarser layout (by decide)).1 _ _ (by decide)⟩
  · exact (covered _ (by decide) (by decide)).mpr (by decide)
  · exact (covered _ (by decide) (by decide)).mpr (by decide)
  · rw [Bool.eq_false_iff, ne_eq, covered _ (by decide) (by decide)]
    decide
  · rw [Bool.eq_false_iff, ne_eq, covered _ (by decide) (by decide)]
    decide

end Layout

end ShortNames
