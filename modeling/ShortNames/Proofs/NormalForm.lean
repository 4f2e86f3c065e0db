import ShortNames.Proofs.MeaningKept
import ShortNames.Proofs.NameSeparators

namespace ShortNames

namespace Terminal

/-- The kind and the text of a token that the grammar sees as a given terminal. What cannot be read
has no text of its own. -/
def face : Terminal → Token.Kind × String
  | .word text => (.identifier, text)
  | .separator .dot => (.separator .dot, ".")
  | .separator .dollar => (.separator .dollar, "$")
  | .comma => (.comma, ",")
  | .openAngle => (.openAngle, "<")
  | .closeAngle => (.closeAngle, ">")
  | .openSquare => (.openSquare, "[")
  | .closeSquare => (.closeSquare, "]")
  | .question => (.question, "?")
  | .bound .upper => (.extendsWord, "extends")
  | .bound .lower => (.superWord, "super")
  | .invalid => (.invalid, "")

end Terminal

namespace Token

/-- A token without its place. -/
def face (token : Token) : Kind × String :=
  (token.kind, token.text)

/-- A token without its place, and with a dot for a dollar. -/
def faceInDots (token : Token) : Kind × String :=
  if token.kind = .separator .dollar then (.separator .dot, ".") else token.face

theorem face_ofWord (word : List Char) (next : Option Char) (offset : UInt32) :
    face ⟨.ofWord word next, String.ofList word, offset⟩ =
      (terminal ⟨.ofWord word next, String.ofList word, offset⟩).face := by
  unfold Kind.ofWord
  split
  · rename_i keyword
    rw [keyword.1]
    rfl
  · split
    · rename_i keyword
      rw [keyword.1]
      rfl
    · rfl

theorem face_ofChar {c : Char} (valid : Kind.ofChar c ≠ .invalid) (offset : UInt32) :
    face ⟨.ofChar c, String.singleton c, offset⟩ =
      (terminal ⟨.ofChar c, String.singleton c, offset⟩).face := by
  unfold Kind.ofChar at valid ⊢
  split at valid
  · rfl
  · rfl
  · rfl
  · rfl
  · rfl
  · rfl
  · rfl
  · rfl
  · exact absurd rfl valid

theorem terminal_eq_invalid {token : Token} (unreadable : token.kind = .invalid) : token.terminal = .invalid := by
  simp only [terminal, unreadable]

/-- A token that can be read looks as its terminal says. -/
theorem face_of_mem_scanFrom {offset : Nat} {text : List Char} {token : Token}
    (member : token ∈ scanFrom offset text) (valid : token.terminal ≠ .invalid) :
    token.face = token.terminal.face := by
  fun_induction scanFrom offset text with
  | case1 => cases member
  | case2 offset c rest gap ih => exact ih member
  | case3 offset c rest gap start word after ih =>
    rcases List.mem_cons.mp member with rfl | later
    · exact face_ofWord word after.head? (.ofNatClamp offset)
    · exact ih later
  | case4 offset c rest gap start ih =>
    rcases List.mem_cons.mp member with rfl | later
    · exact face_ofChar (fun unreadable => valid (terminal_eq_invalid unreadable)) (.ofNatClamp offset)
    · exact ih later

theorem map_face_scan {text : String} (readable : .invalid ∉ terminals text.toList) :
    (scan text).map face = (terminals text.toList).map Terminal.face := by
  rw [terminals, List.map_map]
  refine List.map_congr_left fun token member => face_of_mem_scanFrom member fun unreadable => ?_
  exact readable (unreadable ▸ List.mem_map_of_mem member)

theorem map_faceInDots_scan {text : String} (readable : .invalid ∉ terminals text.toList) :
    (scan text).map faceInDots = ((terminals text.toList).map Terminal.inDots).map Terminal.face := by
  rw [terminals, List.map_map, List.map_map]
  refine List.map_congr_left fun token member => ?_
  have seen : token.face = token.terminal.face := face_of_mem_scanFrom member fun unreadable =>
    readable (unreadable ▸ List.mem_map_of_mem member)
  rw [Function.comp_apply, Function.comp_apply, faceInDots, seen]
  obtain ⟨kind, text, offset⟩ := token
  cases kind with
  | separator mark => cases mark <;> rfl
  | _ => rfl

end Token

namespace TypeName

/-- The name with all that stands before its simple name taken for its package. -/
def flat (name : TypeName) : TypeName :=
  { name with package := name.enclosing, outers := [] }

@[simp] theorem enclosing_flat (name : TypeName) : name.flat.enclosing = name.enclosing :=
  List.append_nil _

@[simp] theorem simple_flat (name : TypeName) : name.flat.simple = name.simple := rfl

@[simp] theorem qualified_flat (name : TypeName) : name.flat.qualified = name.qualified := by
  rw [qualified, enclosing_flat]
  rfl

@[simp] theorem isQualified_flat (name : TypeName) : name.flat.isQualified = name.isQualified := by
  rw [isQualified, enclosing_flat]
  rfl

@[simp] theorem qualifier?_flat (name : TypeName) : name.flat.qualifier? = name.qualifier? := by
  rw [qualifier?, enclosing_flat]
  rfl

@[simp] theorem isShortenable_flat (name : TypeName) : name.flat.isShortenable = name.isShortenable := by
  rw [isShortenable, isQualified_flat]
  rfl

theorem firstUse?_map_flat (names : List TypeName) (simple : String) :
    firstUse? (names.map flat) simple = (firstUse? names simple).map flat := by
  rw [firstUse?, List.find?_map]
  simp only [Function.comp_def, isShortenable_flat]
  rfl

theorem flat_eq_self {name : TypeName} : name.flat = name ↔ name.outers = [] := by
  obtain ⟨package, outers, simple, primitive⟩ := name
  simp only [flat, enclosing, TypeName.mk.injEq, List.append_right_eq_self, and_true, and_iff_left_iff_imp]
  exact Eq.symm

theorem ofPath_dots (outer : List String) (simple : String) :
    ofPath (outer.map (·, .dot)) simple = ⟨outer, [], simple, outer.isEmpty && isPrimitiveKeyword simple⟩ := by
  induction outer with
  | nil => rfl
  | cons piece outer ih =>
    simp only [ofPath, TypeName.mk.injEq, List.map_eq_nil_iff] at ih
    simp [ofPath, ih.1, ih.2.1]

theorem IsPath.inDots_eq_flat {name : TypeName} (path : name.IsPath) : name.inDots = name.flat := by
  obtain ⟨pieces, simple, rfl⟩ := path
  rw [inDots, ofPath_dots, enclosing_ofPath, List.isEmpty_map, flat, enclosing_ofPath]
  rfl

end TypeName

namespace TypeExpr

mutual
theorem mapNames_congr {change other : TypeName → TypeName} :
    (type : TypeExpr) → (∀ name ∈ type.names, change name = other name) →
      type.mapNames change = type.mapNames other
  | .named name, same => congrArg named (same name (List.mem_cons_self ..))
  | .generic head args, same => by
    simp only [names, List.mem_append] at same
    have heads := mapNames_congr head fun name member => same name (.inl member)
    have rests := mapNamesAll_congr args fun name member => same name (.inr member)
    rw [mapNames, mapNames, heads, rests]
  | .inner outer name, same => congrArg (inner · name) (mapNames_congr outer same)
  | .array element dims, same => congrArg (array · dims) (mapNames_congr element same)
  | .anything, _ => rfl
  | .bounded bound limit, same => congrArg (bounded bound) (mapNames_congr limit same)

theorem mapNamesAll_congr {change other : TypeName → TypeName} :
    (types : List TypeExpr) → (∀ name ∈ namesAll types, change name = other name) →
      mapNamesAll change types = mapNamesAll other types
  | [], _ => rfl
  | type :: rest, same => by
    simp only [namesAll, List.mem_append] at same
    have firsts := mapNames_congr type fun name member => same name (.inl member)
    have rests := mapNamesAll_congr rest fun name member => same name (.inr member)
    rw [mapNamesAll, mapNamesAll, firsts, rests]
end

mutual
theorem mapNames_id : (type : TypeExpr) → type.mapNames id = type
  | .named _ => rfl
  | .generic head args => by rw [mapNames, mapNames_id head, mapNamesAll_id args]
  | .inner outer name => congrArg (inner · name) (mapNames_id outer)
  | .array element dims => congrArg (array · dims) (mapNames_id element)
  | .anything => rfl
  | .bounded bound limit => congrArg (bounded bound) (mapNames_id limit)

theorem mapNamesAll_id : (types : List TypeExpr) → mapNamesAll id types = types
  | [] => rfl
  | type :: rest => by rw [mapNamesAll, mapNames_id type, mapNamesAll_id rest]
end

mutual
theorem names_mapNames (change : TypeName → TypeName) :
    (type : TypeExpr) → (type.mapNames change).names = type.names.map change
  | .named _ => rfl
  | .generic head args => by
    rw [mapNames, names, names, List.map_append, names_mapNames change head, namesAll_mapNamesAll change args]
  | .inner outer _ => names_mapNames change outer
  | .array element _ => names_mapNames change element
  | .anything => rfl
  | .bounded _ limit => names_mapNames change limit

theorem namesAll_mapNamesAll (change : TypeName → TypeName) :
    (types : List TypeExpr) → namesAll (mapNamesAll change types) = (namesAll types).map change
  | [] => rfl
  | type :: rest => by
    rw [mapNamesAll, namesAll, namesAll, List.map_append, names_mapNames change type,
      namesAll_mapNamesAll change rest]
end

theorem mapNames_eq_self {change : TypeName → TypeName} {type : TypeExpr} :
    type.mapNames change = type ↔ ∀ name ∈ type.names, change name = name := by
  constructor
  · intro same
    have kept : type.names.map change = type.names.map id := by
      rw [List.map_id, ← names_mapNames, same]
    exact List.map_inj_left.mp kept
  · intro same
    exact (mapNames_congr type same).trans (mapNames_id type)

end TypeExpr

namespace Chain

/-- Where packages end plays no part in what simple names mean once all names were decided. -/
theorem spell_tableAfter_flat (chain : Chain) (table : ImportTable) (names : List TypeName) (name : TypeName) :
    chain.spell (chain.tableAfter table (names.map TypeName.flat)) name.flat =
      chain.spell (chain.tableAfter table names) name := by
  have means : chain.meaning (chain.tableAfter table (names.map TypeName.flat)) name.simple =
      chain.meaning (chain.tableAfter table names) name.simple := by
    unfold meaning
    cases undecided : chain.lookup name.simple with
    | some found => rfl
    | none =>
      rw [lookup_tableAfter chain table _ undecided, lookup_tableAfter chain table _ undecided,
        TypeName.firstUse?_map_flat, Option.map_map]
      simp only [Function.comp_def, TypeName.qualified_flat]
  have inFull : chain.writesInFull (chain.tableAfter table (names.map TypeName.flat)) name.flat =
      chain.writesInFull (chain.tableAfter table names) name := by
    simp only [writesInFull, TypeName.isShortenable_flat, TypeName.qualified_flat, TypeName.simple_flat, means]
  rw [spell, spell, inFull, TypeName.qualified_flat, TypeName.simple_flat]

end Chain

namespace Chain.SeesByPlace

variable {chain : Chain}

/-- Where the package of a name ends plays no part in how the name is spelled. -/
theorem chooseSpelling_flat (byPlace : chain.SeesByPlace) (table : ImportTable) (name : TypeName) :
    chain.chooseSpelling table name.flat = chain.chooseSpelling table name := by
  have bound (standing : Standing) : table.bind name.flat standing = table.bind name standing := by
    simp only [ImportTable.bind, TypeName.qualified_flat]
    rfl
  simp only [chooseSpelling, TypeName.isQualified_flat, TypeName.qualified_flat, bound,
    byPlace.sees_congr name.qualifier?_flat]
  rfl

theorem shortenName_flat (byPlace : chain.SeesByPlace) (table : ImportTable) (name : TypeName) :
    chain.shortenName table name.flat = chain.shortenName table name := by
  simp only [shortenName, byPlace.chooseSpelling_flat, TypeName.qualified_flat]

mutual
theorem shortenType_flat (byPlace : chain.SeesByPlace) : (type : TypeExpr) → (table : ImportTable) →
    chain.shortenType table (type.mapNames TypeName.flat) = chain.shortenType table type
  | .named name, table => by
    have texts (spelling : Spelling) : spelling.text name.flat = spelling.text name := by
      simp only [Spelling.text, TypeName.qualified_flat]
      rfl
    simp only [TypeExpr.mapNames, shortenType, byPlace.shortenName_flat, texts]
  | .generic head args, table => by
    simp only [TypeExpr.mapNames, shortenType, shortenType_flat byPlace head, shortenAll_flat byPlace args]
  | .inner outer name, table => by
    simp only [TypeExpr.mapNames, shortenType, shortenType_flat byPlace outer]
  | .array element dims, table => by
    simp only [TypeExpr.mapNames, shortenType, shortenType_flat byPlace element]
  | .anything, _ => rfl
  | .bounded bound limit, table => by
    simp only [TypeExpr.mapNames, shortenType, shortenType_flat byPlace limit]

theorem shortenAll_flat (byPlace : chain.SeesByPlace) : (types : List TypeExpr) → (table : ImportTable) →
    chain.shortenAll table (TypeExpr.mapNamesAll TypeName.flat types) = chain.shortenAll table types
  | [], _ => rfl
  | type :: rest, table => by
    simp only [TypeExpr.mapNamesAll, shortenAll, shortenType_flat byPlace type, shortenAll_flat byPlace rest]
end

end Chain.SeesByPlace

namespace TypeExpr

open Grammar

theorem render_flat (type : TypeExpr) : (type.mapNames TypeName.flat).render = type.render :=
  renderWith_mapNames type fun name _ => name.qualified_flat

theorem readable_inDots : Readable TypeName.inDots where
  dotted name := ⟨name.enclosing, List.Subset.refl _, rfl⟩
  ordinary path simple ordinary := by
    rw [TypeName.IsPath.inDots_eq_flat ⟨path, simple, rfl⟩]
    exact ordinary

section Parsed

variable {text : String} {type : TypeExpr}

theorem scan_render (parsed : parse text = .ok type) :
    (Token.scan type.render).map Token.face = (Token.scan text).map Token.faceInDots := by
  have written : Token.terminals type.render.toList = type.terminals :=
    terminals_render_whole fun _ => isPlainWord_of_parse parsed
  rw [Token.map_face_scan (written ▸ invalid_not_mem_terminals type),
    Token.map_faceInDots_scan (readable_of_parse parsed), written, terminals_of_parse parsed]

theorem parse_render (parsed : parse text = .ok type) :
    parse type.render = .ok (type.mapNames TypeName.flat) := by
  have same : type.mapNames TypeName.inDots = type.mapNames TypeName.flat :=
    mapNames_congr type fun name member => (isPath_of_parse parsed name member).inDots_eq_flat
  have again := parse_render_mapNames readable_inDots parsed
  rwa [same, render_flat] at again

theorem flat_iff_no_dollar (parsed : parse text = .ok type) :
    type.mapNames TypeName.flat = type ↔
      .dollar ∉ nameSeparators false (Token.terminals text.toList) := by
  have shown : .dollar ∈ nameSeparators false (Token.terminals text.toList ++ []) ↔ _ :=
    dollar_mem_reference ((parse_eq_ok_iff text type).mp parsed) rfl
  simp only [List.append_nil, nameSeparators, List.not_mem_nil, or_false] at shown
  rw [mapNames_eq_self, shown]
  simp [TypeName.SomeNested, TypeName.flat_eq_self]

theorem shorten_render_result (parsed : parse text = .ok type) (chain : Chain) (table : ImportTable) :
    (chain.shorten table type.render).result = (chain.shorten table text).result := by
  rw [Chain.shorten_result (.refl _), Chain.shorten_result (.refl _), Chain.shorten_table, Chain.shorten_table,
    namesIn, namesIn, parse_render parsed, parsed]
  refine congrArg Except.ok (renderWith_mapNames type fun name _ => ?_)
  simp only [names_mapNames]
  exact chain.spell_tableAfter_flat table type.names name

end Parsed

/-- The text of a reference that was read is a normal form of what was read. It has the same tokens
with dots for dollars. It is read as the same reference, in which only the packages reach up to the
simple names; so nothing changes exactly if no dollar was inside a name. Writing that down gives the
same text once more. To shorten it, with any scopes and any table, gives the same text as to shorten the
original, and leaves the same table if the scopes see types by where they are declared. -/
theorem render_normal_form (text : String) (type : TypeExpr) (parsed : parse text = .ok type) :
    (Token.scan type.render).map Token.face = (Token.scan text).map Token.faceInDots ∧
      parse type.render = .ok (type.mapNames TypeName.flat) ∧
      (parse type.render = .ok type ↔
        .dollar ∉ nameSeparators false ((Token.scan text).map Token.terminal)) ∧
      (type.mapNames TypeName.flat).render = type.render ∧
      ∀ (chain : Chain) (table : ImportTable),
        (chain.shorten table type.render).result = (chain.shorten table text).result ∧
          (chain.SeesByPlace → (chain.shorten table type.render).table = (chain.shorten table text).table) := by
  have again := parse_render parsed
  refine ⟨scan_render parsed, again, ?_, render_flat type,
    fun chain table => ⟨shorten_render_result parsed chain table, fun byPlace => ?_⟩⟩
  · rw [again, Except.ok.injEq]
    exact flat_iff_no_dollar parsed
  · simp only [Chain.shorten, again, parsed, byPlace.shortenType_flat]

/-- The dollar in `b.C$D` was inside a name, and the one before `Inner` was not. A foreign scope that
has the types directly in `b.C` in sight sees either spelling of `b.C$D`. -/
theorem render_normal_form_inner :
    let text := "a.Map <b.C$D [ ],? super E>$Inner"
    let normal := "a.Map<b.C.D[],? super E>.Inner"
    let typeWith (name : TypeName) : TypeExpr := .inner (.generic (.named (.ofPath [("a", .dot)] "Map"))
      [.array (.named name) 1, .bounded .lower (.named (.ofPath [] "E"))]) "Inner"
    let scope : ForeignScope := { lookup := fun _ => none, sees := (·.isDirectlyIn "b.C") }
    let chain := (Chain.ofUnit (.ofPackage "app")).push (.foreign scope)
    parse text = .ok (typeWith (.ofPath [("b", .dot), ("C", .dollar)] "D")) ∧
      (Token.scan normal).map Token.face = (Token.scan text).map Token.faceInDots ∧
      parse normal = .ok (typeWith (.ofPath [("b", .dot), ("C", .dot)] "D")) ∧
      .dollar ∈ nameSeparators false ((Token.scan text).map Token.terminal) ∧
      chain.SeesByPlace ∧
      (chain.shorten {} text).result = .ok "Map<D[],? super E>.Inner" ∧
      (chain.shorten {} normal).result = .ok "Map<D[],? super E>.Inner" ∧
      (chain.shorten {} normal).table.entries = [⟨"Map", "a.Map", .imported⟩, ⟨"D", "b.C.D", .implicit⟩] := by
  intro text normal typeWith scope chain
  let type := typeWith (.ofPath [("b", .dot), ("C", .dollar)] "D")
  have parsed : parse text = .ok type := eq_ok_of_toOption (by decide +kernel)
  have written : type.render = normal := by decide +kernel
  have flattened : type.mapNames TypeName.flat = typeWith (.ofPath [("b", .dot), ("C", .dot)] "D") := by
    decide +kernel
  have dollar : .dollar ∈ nameSeparators false ((Token.scan text).map Token.terminal) := by decide +kernel
  have byPlace : chain.SeesByPlace := Chain.seesByPlace_of_place fun _ _ same => by
    simp only [scope, TypeName.isDirectlyIn, same]
  have shortText : (chain.shorten {} text).result = .ok "Map<D[],? super E>.Inner" :=
    eq_ok_of_toOption (by decide +kernel)
  have entries : (chain.shorten {} text).table.entries = [⟨"Map", "a.Map", .imported⟩, ⟨"D", "b.C.D", .implicit⟩] := by
    decide +kernel
  obtain ⟨tokens, again, -, -, shortened⟩ := render_normal_form text type parsed
  rw [written] at tokens again shortened
  obtain ⟨sameText, sameTable⟩ := shortened chain {}
  exact ⟨parsed, tokens, flattened ▸ again, dollar, byPlace, shortText, sameText.trans shortText,
    sameTable byPlace ▸ entries⟩

end TypeExpr

end ShortNames
