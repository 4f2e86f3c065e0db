import ShortNames.Proofs.PassSpecification
import ShortNames.Proofs.Respelling

namespace ShortNames

/-- The name was read from a path and not put together otherwise. -/
def TypeName.IsPath (name : TypeName) : Prop :=
  ∃ path simple, name = .ofPath path simple

theorem TypeName.IsPath.isShortenable {name : TypeName} (path : name.IsPath)
    (qualified : name.isQualified = true) : name.isShortenable = true := by
  obtain ⟨pieces, simple, rfl⟩ := path
  cases pieces with
  | nil => cases qualified
  | cons piece pieces =>
    have ordinary : (ofPath (piece :: pieces) simple).primitive = false := primitive_ofPath_eq_false.mpr nofun
    rw [TypeName.isShortenable, qualified, ordinary]
    rfl

namespace TypeExpr

open Grammar

mutual
theorem isPath_of_reference : ∀ {level terminals type}, Reference level terminals type →
    ∀ name ∈ type.names, name.IsPath
  | _, _, _, .anything _ => by
    intro name member
    cases member
  | _, _, _, @Reference.bounded _ _ _ limit _ derived =>
    show ∀ name ∈ limit.names, name.IsPath from isPath_of_arrayType derived
  | _, _, _, .unbounded _ derived => isPath_of_arrayType derived

theorem isPath_of_arrayType : ∀ {level terminals type}, ArrayType level terminals type →
    ∀ name ∈ type.names, name.IsPath
  | _, _, _, .element derived => isPath_of_classType derived
  | _, _, _, @ArrayType.array _ _ type _ derived _ =>
    show ∀ name ∈ type.names, name.IsPath from isPath_of_classType derived

theorem isPath_of_classType : ∀ {level terminals type}, ClassType level terminals type →
    ∀ name ∈ type.names, name.IsPath
  | _, _, _, @ClassType.plain _ path simple => by
    intro name member
    exact ⟨path, simple, List.mem_singleton.mp member⟩
  | _, _, _, @ClassType.applied _ path simple _ _ _ _ _ listed derived => by
    refine isPath_of_inners derived fun name member => ?_
    rcases List.mem_append.mp member with head | arg
    · exact ⟨path, simple, List.mem_singleton.mp head⟩
    · exact isPath_of_arguments listed name arg

theorem isPath_of_arguments : ∀ {level terminals types}, Arguments level terminals types →
    ∀ name ∈ namesAll types, name.IsPath
  | _, _, _, .last derived => by
    intro name member
    rw [namesAll, namesAll, List.append_nil] at member
    exact isPath_of_reference derived name member
  | _, _, _, .more derived listed => by
    intro name member
    rcases List.mem_append.mp member with first | later
    · exact isPath_of_reference derived name first
    · exact isPath_of_arguments listed name later

theorem isPath_of_applied : ∀ {level head terminals type}, Applied level head terminals type →
    (∀ name ∈ head.names, name.IsPath) → ∀ name ∈ type.names, name.IsPath
  | _, _, _, _, .plain, paths => paths
  | _, _, _, _, .applied listed, paths => by
    intro name member
    rcases List.mem_append.mp member with head | arg
    · exact paths name head
    · exact isPath_of_arguments listed name arg

theorem isPath_of_inners : ∀ {level outer terminals type}, Inners level outer terminals type →
    (∀ name ∈ outer.names, name.IsPath) → ∀ name ∈ type.names, name.IsPath
  | _, _, _, _, .done, paths => paths
  | _, _, _, _, .next _ applied derived, paths =>
    isPath_of_inners derived (isPath_of_applied applied paths)
end

theorem isPath_of_parse {text : String} {type : TypeExpr} (parsed : parse text = .ok type) :
    ∀ name ∈ type.names, name.IsPath :=
  isPath_of_reference ((parse_eq_ok_iff text type).mp parsed)

/-- Names may be left bare as long as a qualified one does not end up as a primitive type. -/
theorem readable_respell {inFull : TypeName → Bool}
    (kept : ∀ name, name.isQualified = true → isPrimitiveKeyword name.simple = true → inFull name = true) :
    Readable (TypeName.respell inFull) where
  dotted name := by
    unfold TypeName.respell
    split
    · exact ⟨name.enclosing, List.Subset.refl _, rfl⟩
    · exact ⟨[], List.nil_subset _, rfl⟩
  ordinary path simple ordinary := by
    cases path with
    | nil =>
      -- Nothing is left out of an unqualified name, in whichever way it is written.
      unfold TypeName.respell
      split <;> exact ordinary
    | cons piece path =>
      unfold TypeName.respell
      split
      · rw [TypeName.inDots, TypeName.enclosing_ofPath]
        exact TypeName.primitive_ofPath_eq_false.mpr fun empty => absurd empty (by simp)
      · rename_i bare
        have noKeyword : isPrimitiveKeyword simple ≠ true := fun keyword =>
          bare (kept (.ofPath (piece :: path) simple) (by simp [TypeName.isQualified]) keyword)
        simpa [TypeName.bare, TypeName.ofPath] using noKeyword

end TypeExpr

namespace Chain

/-- A name that does not have to be written in full is what its simple name means. -/
theorem Knows.meaning_eq {chain : Chain} {table : ImportTable} {name : TypeName}
    (knows : chain.Knows table name) (shortenable : name.isShortenable = true)
    (short : chain.writesInFull table name = false) :
    chain.meaning table name.simple = some name.qualified := by
  obtain ⟨found, known⟩ := Option.isSome_iff_exists.mp (knows shortenable)
  simp only [writesInFull, shortenable, known, Option.any_some, Bool.true_and, bne_eq_false_iff_eq] at short
  rw [known, short]

theorem knows_shorten {chain : Chain} {table : ImportTable} {text : String} {type : TypeExpr}
    (parsed : TypeExpr.parse text = .ok type) :
    ∀ name ∈ type.names, chain.Knows (chain.shorten table text).table name := by
  intro name member
  rw [shorten_table]
  refine chain.knows_tableAfter table _ name ?_
  rw [TypeExpr.namesIn, parsed]
  exact member

/-- A shortened text still says what the text before said. It is read as the same tree, in which
every name stands in full or bare, and whatever happens to the table afterwards, a qualified name
that is now bare is what its simple name means there. A name such as `a.int` is left out: bare, it
would be the primitive type. -/
theorem shorten_keeps_meaning (chain : Chain) (table : ImportTable) (text : String) (type : TypeExpr)
    (parsed : TypeExpr.parse text = .ok type)
    (clear : ∀ name ∈ type.names, name.isQualified = true → isPrimitiveKeyword name.simple = false) :
    ∃ (short : String) (inFull : TypeName → Bool),
      (chain.shorten table text).result = .ok short ∧
      TypeExpr.parse short = .ok (type.mapNames (TypeName.respell inFull)) ∧
      ∀ name ∈ type.names, name.isQualified = true → inFull name = false →
        ∀ history : List Operation,
          (chain.lookup name.simple).or
            (((chain.shorten table text).table.after history).lookup name.simple) =
              some name.qualified := by
  let later := (chain.shorten table text).table
  -- The second case never arises for the names at hand and makes the rule right for all others.
  let inFull (name : TypeName) : Bool :=
    chain.writesInFull later name || (name.isQualified && isPrimitiveKeyword name.simple)
  have decided : ∀ name ∈ type.names, inFull name = chain.writesInFull later name := by
    intro name member
    cases qualified : name.isQualified with
    | false => simp [inFull, qualified]
    | true => simp [inFull, clear name member qualified]
  have written : (type.mapNames (TypeName.respell inFull)).render =
      type.renderWith (chain.spell later) := by
    refine TypeExpr.renderWith_mapNames type fun name member => ?_
    rw [TypeName.qualified_respell, decided name member]
    rfl
  have readable : TypeExpr.Readable (TypeName.respell inFull) :=
    TypeExpr.readable_respell fun name qualified keyword => by simp [inFull, qualified, keyword]
  refine ⟨(type.mapNames (TypeName.respell inFull)).render, inFull, ?_,
    TypeExpr.parse_render_mapNames readable parsed, ?_⟩
  · rw [shorten_result (.refl later), parsed, written]
    rfl
  · intro name member qualified bare history
    rw [decided name member] at bare
    have shortenable := (TypeExpr.isPath_of_parse parsed name member).isShortenable qualified
    have now := (knows_shorten parsed name member).meaning_eq shortenable bare
    exact meaning_of_grows (later.grows_after history) now

/-- The second `Map` comes too late for its simple name and stays in full, its dollar now a dot. -/
theorem shorten_keeps_meaning_map :
    let chain := Chain.ofUnit (.ofPackage "app")
    let text := "java.util.Map<java.lang.String, ? extends org.Outer$Map>[]"
    let type : TypeExpr := .array (.generic (.named (.ofPath [("java", .dot), ("util", .dot)] "Map"))
      [.named (.ofPath [("java", .dot), ("lang", .dot)] "String"),
        .bounded .upper (.named (.ofPath [("org", .dot), ("Outer", .dollar)] "Map"))]) 1
    TypeExpr.parse text = .ok type ∧
      (∀ name ∈ type.names, name.isQualified = true → isPrimitiveKeyword name.simple = false) ∧
      (chain.shorten {} text).result = .ok "Map<String,? extends org.Outer.Map>[]" ∧
      ∃ inFull : TypeName → Bool,
        TypeExpr.parse "Map<String,? extends org.Outer.Map>[]" =
          .ok (type.mapNames (TypeName.respell inFull)) ∧
        ∀ name ∈ type.names, name.isQualified = true → inFull name = false →
          ∀ history : List Operation,
            (chain.lookup name.simple).or
              (((chain.shorten {} text).table.after history).lookup name.simple) =
                some name.qualified := by
  intro chain text type
  have parsed : TypeExpr.parse text = .ok type := eq_ok_of_toOption (by decide +kernel)
  have clear : ∀ name ∈ type.names, name.isQualified = true → isPrimitiveKeyword name.simple = false := by
    decide +kernel
  have shortened : (chain.shorten {} text).result = .ok "Map<String,? extends org.Outer.Map>[]" :=
    eq_ok_of_toOption (by decide +kernel)
  obtain ⟨short, inFull, result, reread, meant⟩ := shorten_keeps_meaning chain {} text type parsed clear
  obtain rfl := Except.ok.inj (result.symm.trans shortened)
  exact ⟨parsed, clear, shortened, inFull, reread, meant⟩

end Chain

end ShortNames
