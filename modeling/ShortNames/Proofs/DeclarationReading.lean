import ShortNames.Proofs.BuiltNames
import ShortNames.Proofs.DeclarationText

namespace ShortNames.Declaration

/-- What a line can declare: identifiers with dots between them. Only an import on demand may
name a single one. -/
def IsReadable (declaration : Declaration) : Prop :=
  ∃ outer simple, IsDotted (outer ++ [simple]) declaration.name ∧
    (declaration.onDemand = false → outer ≠ [])

theorem IsReadable.parse_own_text {declaration : Declaration} (readable : declaration.IsReadable) :
    parse declaration.render = .ok declaration := by
  obtain ⟨outer, simple, spelled, long⟩ := readable
  exact parse_render spelled long

/-- Nothing else is read, however loosely the line is written. -/
theorem isReadable_of_parse {line : String} {declaration : Declaration} (parsed : parse line = .ok declaration) :
    declaration.IsReadable := by
  obtain ⟨name, written, full, qualified⟩ := name_of_parse parsed
  refine ⟨name.enclosing, name.simple, ⟨full, written⟩, fun single bare => ?_⟩
  have long := qualified single
  rw [TypeName.isQualified, bare] at long
  cases long

theorem isReadable_of_pieces (declaration : Declaration) {pieces : List String} (long : 2 ≤ pieces.length)
    (spelled : IsDotted pieces declaration.name) : declaration.IsReadable := by
  have nonempty : pieces ≠ [] := by
    rintro rfl
    simp at long
  have split := List.dropLast_concat_getLast nonempty
  refine ⟨pieces.dropLast, pieces.getLast nonempty, split.symm ▸ spelled, fun _ single => ?_⟩
  have length := congrArg List.length split
  rw [single, List.nil_append, List.length_singleton] at length
  omega

/-- Reading undoes writing. What was read from any line is read again from its own text, and so is
the import of every type and of every member that has a name of two or more identifiers. In all,
a declaration is read from its own text exactly if a line can declare it. -/
theorem parse_inverts_render :
    (∀ (line : String) (declaration : Declaration), parse line = .ok declaration →
      parse declaration.render = .ok declaration) ∧
    (∀ pieces : List String, 2 ≤ pieces.length → (∀ piece ∈ pieces, isIdentifier piece = true) →
      parse (ofType (dotted pieces)).render = .ok (ofType (dotted pieces)) ∧
        parse (ofMember (dotted pieces)).render = .ok (ofMember (dotted pieces))) ∧
    ∀ declaration : Declaration, parse declaration.render = .ok declaration ↔ declaration.IsReadable := by
  refine ⟨fun line declaration parsed => ?_, fun pieces long written => ⟨?_, ?_⟩, fun declaration => ?_⟩
  · exact (isReadable_of_parse parsed).parse_own_text
  · exact (isReadable_of_pieces (ofType (dotted pieces)) long ⟨rfl, written⟩).parse_own_text
  · exact (isReadable_of_pieces (ofMember (dotted pieces)) long ⟨rfl, written⟩).parse_own_text
  · exact ⟨isReadable_of_parse, IsReadable.parse_own_text⟩

/-- Neither keywords in a name nor blanks and a dollar in the line it was read from do any harm. -/
theorem parse_inverts_render_keywords :
    let onDemand : Declaration := ⟨"static.import.int", true, true⟩
    parse " import\tstatic  static.import$int .* ; " = .ok onDemand ∧
      parse "import static static.import.int.*;" = .ok onDemand ∧
      parse "import static.import;" = .ok (ofType "static.import") ∧
      parse "import static static.import;" = .ok (ofMember "static.import") := by
  intro onDemand
  have loose : parse " import\tstatic  static.import$int .* ; " = .ok onDemand :=
    eq_ok_of_toOption (by decide +kernel)
  have written : ∀ piece ∈ ["static", "import"], isIdentifier piece = true := by decide +kernel
  obtain ⟨again, inDots, -⟩ := parse_inverts_render
  obtain ⟨type, member⟩ := inDots ["static", "import"] (by decide) written
  exact ⟨loose, again _ onDemand loose, type, member⟩

end ShortNames.Declaration
