import ShortNames.Proofs.Scanning
import ShortNames.Proofs.TreeTerminals
import ShortNames.TypeExpr.Printer

namespace ShortNames

namespace Token

theorem breaks_nil : Breaks [] := by
  intro c found
  cases found

theorem breaks_mark {c : Char} (valid : Kind.ofChar c ≠ .invalid) (rest : List Char) :
    Breaks (c :: rest) := by
  intro d found
  cases found
  exact (foreign_of_ofChar valid).1

theorem breaks_gap {c : Char} (gap : isGap c = true) (rest : List Char) : Breaks (c :: rest) := by
  intro d found
  cases found
  exact isIdentifierPart_eq_false_of_isBlank (isBlank_of_isGap gap)

theorem terminals_dotted {pieces : List String} {simple : String} {after : List Char}
    (plain : ∀ word ∈ pieces ++ [simple], isPlainWord word = true) (ends : Breaks after) :
    terminals ((dotted (pieces ++ [simple])).toList ++ after) =
      pathTerminals (pieces.map (·, .dot)) simple ++ terminals after := by
  induction pieces with
  | nil =>
    rw [List.nil_append, dotted, String.intercalate_singleton]
    exact terminals_plain (plain simple (List.mem_cons_self ..)) ends
  | cons piece pieces ih =>
    have first := plain piece (List.mem_cons_self ..)
    have rest := ih fun word member => plain word (List.mem_cons_of_mem _ member)
    have split : (dotted (piece :: pieces ++ [simple])).toList ++ after =
        piece.toList ++ '.' :: ((dotted (pieces ++ [simple])).toList ++ after) := by
      rw [List.cons_append, dotted, String.intercalate_cons_of_ne_nil (by simp)]
      simp [dotted]
    rw [split, terminals_plain first (breaks_mark (by decide) _), terminals_ofChar (by decide), rest]
    rfl

theorem terminals_keyword (bound : Bound) (rest : List Char) :
    terminals (bound.keyword.toList ++ ' ' :: rest) = .bound bound :: terminals rest := by
  have valid : isWord bound.keyword.toList = true := by cases bound <;> decide +kernel
  have kind : Token.terminal ⟨.ofWord bound.keyword.toList (some ' '), String.ofList bound.keyword.toList, 0⟩ =
      .bound bound := by
    cases bound <;> decide +kernel
  rw [terminals_word valid (breaks_gap (by decide) rest), List.head?_cons, kind, terminals_gap (by decide)]

theorem terminals_brackets (dims : Nat) (after : List Char) :
    terminals ((String.join (List.replicate dims "[]")).toList ++ after) =
      bracketTerminals dims ++ terminals after := by
  induction dims with
  | zero => simp [bracketTerminals]
  | succ dims ih =>
    have split : (String.join (List.replicate (dims + 1) "[]")).toList ++ after =
        '[' :: ']' :: ((String.join (List.replicate dims "[]")).toList ++ after) := by
      simp [List.replicate_succ]
    rw [split, terminals_ofChar (by decide), terminals_ofChar (by decide), ih]
    rfl

theorem breaks_brackets (dims : Nat) {after : List Char} (ends : Breaks after) :
    Breaks ((String.join (List.replicate dims "[]")).toList ++ after) := by
  cases dims with
  | zero => simpa using ends
  | succ dims =>
    have split : (String.join (List.replicate (dims + 1) "[]")).toList ++ after =
        '[' :: (']' :: (String.join (List.replicate dims "[]")).toList ++ after) := by
      simp [List.replicate_succ]
    rw [split]
    exact breaks_mark (by decide) _

end Token

namespace TypeExpr

open Token (Breaks breaks_mark)

mutual
/-- The text of a reference is scanned into the terminals of that reference: no two of its tokens
run together, and the words in it are read as words. -/
theorem terminals_render : (type : TypeExpr) →
    (∀ word, .word word ∈ type.terminals → isPlainWord word = true) → (after : List Char) →
    Breaks after → Token.terminals (type.render.toList ++ after) = type.terminals ++ Token.terminals after
  | .named name, plain, after, ends => by
    refine Token.terminals_dotted (fun word member => plain word ?_) ends
    rw [terminals, word_mem_pathTerminals]
    simpa [List.mem_map, Function.comp_def] using member
  | .generic head args, plain, after, ends => by
    have split : (render (.generic head args)).toList ++ after = head.render.toList ++
        '<' :: ((",".intercalate (renderAllWith TypeName.qualified args)).toList ++ '>' :: after) := by
      simp [render, renderWith, writeGeneric]
    simp only [terminals, List.mem_append, List.mem_cons, reduceCtorEq, false_or] at plain
    rw [split, terminals_render head (fun word member => plain word (.inl member)) _ (breaks_mark (by decide) _),
      Token.terminals_ofChar (by decide),
      terminals_renderAll args (fun word member => plain word (.inr member)), terminals, List.append_assoc]
    rfl
  | .inner outer name, plain, after, ends => by
    have split : (render (.inner outer name)).toList ++ after =
        outer.render.toList ++ '.' :: (name.toList ++ after) := by
      simp [render, renderWith, writeInner]
    simp only [terminals, List.mem_append, List.mem_cons, reduceCtorEq, false_or] at plain
    rw [split, terminals_render outer (fun word member => plain word (.inl member)) _ (breaks_mark (by decide) _),
      Token.terminals_ofChar (by decide), Token.terminals_plain (plain name (by simp)) ends, terminals,
      List.append_assoc]
    rfl
  | .array element dims, plain, after, ends => by
    have split : (render (.array element dims)).toList ++ after =
        element.render.toList ++ ((String.join (List.replicate dims "[]")).toList ++ after) := by
      simp [render, renderWith, writeArray]
    simp only [terminals, List.mem_append] at plain
    rw [split, terminals_render element (fun word member => plain word (.inl member)) _
      (Token.breaks_brackets dims ends), Token.terminals_brackets, terminals, List.append_assoc]
  | .anything, _, after, _ => by
    exact Token.terminals_ofChar (c := '?') (by decide) after
  | .bounded bound limit, plain, after, ends => by
    have split : (render (.bounded bound limit)).toList ++ after =
        '?' :: ' ' :: (bound.keyword.toList ++ ' ' :: (limit.render.toList ++ after)) := by
      simp [render, renderWith, writeBounded]
    simp only [terminals, List.mem_cons, reduceCtorEq, false_or] at plain
    rw [split, Token.terminals_ofChar (by decide), Token.terminals_gap (by decide), Token.terminals_keyword,
      terminals_render limit plain after ends]
    rfl

theorem terminals_renderAll : (types : List TypeExpr) →
    (∀ word, .word word ∈ terminalsAll types → isPlainWord word = true) → (after : List Char) →
    Token.terminals ((",".intercalate (renderAllWith TypeName.qualified types)).toList ++ '>' :: after) =
      terminalsAll types ++ Token.terminals after
  | [], _, after => by
    exact Token.terminals_ofChar (c := '>') (by decide) after
  | [type], plain, after => by
    simp only [terminalsAll, List.mem_append, List.mem_cons, reduceCtorEq, List.not_mem_nil, or_false] at plain
    rw [renderAllWith, renderAllWith, String.intercalate_singleton]
    have text := terminals_render type plain ('>' :: after) (breaks_mark (by decide) _)
    rw [render] at text
    rw [text, Token.terminals_ofChar (by decide), terminalsAll, List.append_assoc]
    rfl
  | type :: next :: rest, plain, after => by
    have split : (",".intercalate (renderAllWith TypeName.qualified (type :: next :: rest))).toList ++ '>' :: after =
        type.render.toList ++
          ',' :: ((",".intercalate (renderAllWith TypeName.qualified (next :: rest))).toList ++ '>' :: after) := by
      simp [renderAllWith, render, String.intercalate_cons_cons]
    simp only [terminalsAll, List.mem_append, List.mem_cons, reduceCtorEq, false_or] at plain
    rw [split, terminals_render type (fun word member => plain word (.inl member)) _ (breaks_mark (by decide) _),
      Token.terminals_ofChar (by decide),
      terminals_renderAll (next :: rest) (fun word member => plain word (.inr member)), terminalsAll,
      List.append_assoc]
    rfl
end

theorem terminals_render_whole {type : TypeExpr}
    (plain : ∀ word, .word word ∈ type.terminals → isPlainWord word = true) :
    Token.terminals type.render.toList = type.terminals := by
  have whole := terminals_render type plain [] Token.breaks_nil
  rwa [List.append_nil, Token.terminals_nil, List.append_nil] at whole

end TypeExpr

end ShortNames
