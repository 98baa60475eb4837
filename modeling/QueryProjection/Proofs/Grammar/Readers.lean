import QueryProjection.Proofs.Grammar.Parallel

/-!
# The readers of the grammar, side by side

One reader after another is shown to be blind, in the order of the grammar.  What is selected is of
interest beyond that.  If selection sets are of some sort, then so are the selections of all
operations and fragments of a document (`draws_document`), and of a document that is read from a
text (`draws_run`).
-/

namespace QueryProjection

/-- What an operation or a fragment selects; a definition of types selects nothing. -/
def Definition.selections : Definition → List Selection
  | .operation defined => defined.selections
  | .fragment defined => defined.selections
  | .typeSystem _ _ | .typeExtension _ => []

namespace Grammar

variable {likeness : Likeness}

/-! ### Values -/

theorem blind_variableLiteral (constant : Bool) : Blind likeness (variableLiteral constant) := by
  refine .get fun lexemes lexemes' hmatch => ?_
  refine Parallel.step (Blind.require .dollar) fun _ _ _ => ?_
  split
  · refine Parallel.step Blind.next ?_
    rintro found _ rfl
    split
    · exact .failAt rfl hmatch
    · rw [hmatch.head?]
      exact .failAt rfl hmatch
  · exact Blind.name.step fun value => .done _

theorem blind_literalWithin (constant : Bool) (depth : Nat) :
    Blind likeness (literalWithin constant depth) := by
  induction depth with
  | zero => exact .unexpected
  | succ depth ih =>
      have hfield : Blind likeness (do
          let fieldName ← name
          require .colon
          return (fieldName, ← literalWithin constant depth)) :=
        Blind.name.step fun fieldName => (Blind.require .colon).step fun _ =>
          ih.step fun value => .done (fieldName, value)
      unfold literalWithin
      refine Blind.next.step fun found => ?_
      split
      · exact (ih.anyBetween _ _).step fun items => .done _
      · exact (hfield.anyBetween _ _).step fun fields => .done _
      · exact blind_variableLiteral constant
      · exact Blind.advance.step fun _ => .done _
      · exact Blind.advance.step fun _ => .done _
      · exact Blind.advance.step fun _ => .done _
      · exact Blind.advance.step fun _ => .done _
      · exact .unexpected

theorem blind_literal (constant : Bool) : Blind likeness (literal constant) :=
  .count fun _ => blind_literalWithin constant _

theorem blind_argument (constant : Bool) : Blind likeness (argument constant) :=
  Blind.name.step fun name => (Blind.require .colon).step fun _ =>
    (blind_literal constant).step fun value => .done (name, value)

theorem blind_arguments (constant : Bool) : Blind likeness (arguments constant) :=
  (blind_argument constant).optionalBetween _ _

theorem blind_directive (constant : Bool) : Blind likeness (directive constant) :=
  (Blind.require .at).step fun _ => Blind.name.step fun _ =>
    (blind_arguments constant).step fun _ => .done _

theorem blind_directives (constant : Bool) : Blind likeness (directives constant) :=
  (blind_directive constant).startingWith _

/-! ### Selections -/

theorem blind_fragmentName : Blind likeness fragmentName := by
  refine Blind.next.step fun found => ?_
  split
  · exact .unexpected
  · exact .name

section Selections

variable {nested : Reader (List Selection)} (h : Blind likeness nested)

include h

theorem blind_field : Blind likeness (field nested) := by
  unfold field
  refine Blind.name.step fun first => (Blind.accept .colon).step fun renamed => ?_
  dsimp only
  split
  all_goals
    refine Blind.step (by first | exact Blind.name.map some | exact .done none) fun second => ?_
    refine (blind_arguments false).step fun arguments => ?_
    refine (blind_directives false).step fun directives => ?_
    refine (Blind.nextIs .braceOpen).step fun opens => ?_
    split
    · refine (h.map some).step fun selections => ?_
      cases second <;> exact .done _
    · refine (Blind.done none).step fun selections => ?_
      cases second <;> exact .done _

theorem blind_spread : Blind likeness (spread nested) := by
  unfold spread
  refine (Blind.require .spread).step fun _ => (Blind.acceptWord "on").step fun conditional => ?_
  split
  · exact Blind.name.step fun condition => (blind_directives false).step fun directives =>
      h.step fun selections => .done _
  · refine Blind.next.step fun found => ?_
    split
    · exact blind_fragmentName.step fun fragment => (blind_directives false).step fun directives =>
        .done _
    · exact (blind_directives false).step fun directives => h.step fun selections => .done _

end Selections

theorem blind_selectionSetWithin (depth : Nat) : Blind likeness (selectionSetWithin depth) := by
  induction depth with
  | zero => exact .unexpected
  | succ depth ih =>
      have hselection : Blind likeness (do
          if ← nextIs .spread then spread (selectionSetWithin depth)
          else field (selectionSetWithin depth)) := by
        refine (Blind.nextIs .spread).step fun spreads => ?_
        split
        · exact blind_spread ih
        · exact blind_field ih
      exact hselection.someBetween _ _

theorem blind_selectionSet : Blind likeness selectionSet :=
  .count fun _ => blind_selectionSetWithin _

/-! ### Types and descriptions -/

theorem blind_typeReferenceWithin (depth : Nat) : Blind likeness (typeReferenceWithin depth) := by
  induction depth with
  | zero => exact .unexpected
  | succ depth ih =>
      have hmarked (inner : TypeReference) : Blind likeness (do
          if ← accept .bang then return inner.nonNull else return inner) := by
        refine (Blind.accept .bang).step fun marked => ?_
        split
        · exact .done _
        · exact .done _
      unfold typeReferenceWithin
      refine (Blind.accept .bracketOpen).step fun opens => ?_
      dsimp only
      split
      · refine ih.step fun item => (Blind.require .bracketClose).step fun _ => ?_
        exact (Blind.done item.list).step hmarked
      · exact (Blind.name.map TypeReference.named).step hmarked

theorem blind_typeReference : Blind likeness typeReference :=
  .count fun _ => blind_typeReferenceWithin _

theorem blind_description : Blind likeness description := by
  refine Blind.next.step fun found => ?_
  split
  · exact Blind.advance.step fun _ => .done _
  · exact .done none

theorem blind_defaultValue : Blind likeness defaultValue := by
  refine (Blind.accept .equals).step fun found => ?_
  split
  · exact (blind_literal true).map some
  · exact .done none

/-! ### Operations and fragments -/

theorem blind_operationKind : Blind likeness operationKind := by
  refine .get fun lexemes lexemes' hmatch => ?_
  refine Parallel.step Blind.name ?_
  rintro word _ rfl
  split
  · exact .done rfl
  · rw [hmatch.head?]
    exact .failAt rfl hmatch

theorem blind_variableDefinition : Blind likeness variableDefinition :=
  blind_description.step fun _ => (Blind.require .dollar).step fun _ =>
    Blind.name.step fun _ => (Blind.require .colon).step fun _ =>
      blind_typeReference.step fun _ => blind_defaultValue.step fun _ =>
        (blind_directives true).step fun _ => .done _

/-! ### Type systems -/

theorem blind_inputValue : Blind likeness inputValue :=
  blind_description.step fun _ => Blind.name.step fun _ => (Blind.require .colon).step fun _ =>
    blind_typeReference.step fun _ => blind_defaultValue.step fun _ =>
      (blind_directives true).step fun _ => .done _

theorem blind_argumentDefinitions : Blind likeness argumentDefinitions :=
  blind_inputValue.optionalBetween _ _

theorem blind_fieldDefinition : Blind likeness fieldDefinition :=
  blind_description.step fun _ => Blind.name.step fun _ => blind_argumentDefinitions.step fun _ =>
    (Blind.require .colon).step fun _ => blind_typeReference.step fun _ =>
      (blind_directives true).step fun _ => .done _

theorem blind_fieldDefinitions : Blind likeness fieldDefinitions :=
  blind_fieldDefinition.optionalBetween _ _

theorem blind_interfaces : Blind likeness interfaces := by
  refine (Blind.acceptWord "implements").step fun found => ?_
  split
  · exact Blind.name.separated _
  · exact .done []

theorem blind_unionMembers : Blind likeness unionMembers := by
  refine (Blind.accept .equals).step fun found => ?_
  split
  · exact Blind.name.separated _
  · exact .done []

theorem blind_enumValue : Blind likeness enumValue := by
  refine blind_description.step fun text => ?_
  have hvalue : Blind likeness (do
      let valueName ← name
      return { description := text, name := valueName,
               directives := ← directives true : EnumValue }) :=
    Blind.name.step fun _ => (blind_directives true).step fun _ => .done _
  refine .get fun lexemes lexemes' hmatch => ?_
  rw [hmatch.head?]
  split
  · dsimp only
    split
    · have hfails (found : Lexeme) :
          Parallel likeness Eq (failAt (.reservedEnumValue found) lexemes : Reader PUnit)
            (failAt (.reservedEnumValue found) lexemes') :=
        .failAt rfl hmatch
      exact (hfails _).step fun _ _ _ => hvalue
    · exact hvalue
  · exact hvalue

theorem blind_enumValues : Blind likeness enumValues := blind_enumValue.optionalBetween _ _

theorem blind_inputFields : Blind likeness inputFields := blind_inputValue.optionalBetween _ _

theorem blind_operationType : Blind likeness operationType :=
  blind_operationKind.step fun _ => (Blind.require .colon).step fun _ =>
    Blind.name.step fun _ => .done _

theorem blind_directiveLocation : Blind likeness directiveLocation := by
  refine .get fun lexemes lexemes' hmatch => ?_
  refine Parallel.step Blind.name ?_
  rintro word _ rfl
  split
  · exact .done rfl
  · rw [hmatch.head?]
    exact .failAt rfl hmatch

theorem blind_typeSystemBody (extension : Bool) (word : String) :
    Blind likeness (typeSystemBody extension word) := by
  unfold typeSystemBody
  split
  · refine (blind_directives true).step fun _ => ?_
    dsimp only
    split
    · exact (blind_operationType.optionalBetween _ _).step fun _ => .done _
    · exact (blind_operationType.someBetween _ _).step fun _ => .done _
  · exact Blind.name.step fun _ => (blind_directives true).step fun _ => .done _
  · exact Blind.name.step fun _ => blind_interfaces.step fun _ =>
      (blind_directives true).step fun _ => blind_fieldDefinitions.step fun _ => .done _
  · exact Blind.name.step fun _ => blind_interfaces.step fun _ =>
      (blind_directives true).step fun _ => blind_fieldDefinitions.step fun _ => .done _
  · exact Blind.name.step fun _ => (blind_directives true).step fun _ =>
      blind_unionMembers.step fun _ => .done _
  · exact Blind.name.step fun _ => (blind_directives true).step fun _ =>
      blind_enumValues.step fun _ => .done _
  · exact Blind.name.step fun _ => (blind_directives true).step fun _ =>
      blind_inputFields.step fun _ => .done _
  · exact (Blind.require .at).step fun _ => Blind.name.step fun _ =>
      blind_argumentDefinitions.step fun _ => (Blind.acceptWord "repeatable").step fun _ =>
        (Blind.requireWord "on").step fun _ =>
          (blind_directiveLocation.separated _).step fun _ => .done _
  · exact .unexpected

/-! ### Definitions -/

theorem parallel_lookAhead : Parallel likeness likeness.Matches lookAhead lookAhead := by
  refine Parallel.get.step fun lexemes lexemes' hmatch here here' hhere => ?_
  exact (likewise_checkNext hmatch.tail).step fun ahead ahead' hahead => .ok ⟨hahead, hhere⟩

section Definitions

variable {sort : List Selection → Prop} (hnil : sort [])
  (hselections : Draws likeness selectionSet sort)

section Selecting

include hselections

theorem draws_shorthandQuery :
    Draws likeness shorthandQuery fun definition => sort definition.selections :=
  hselections.step fun _ h => .done h

theorem draws_operation :
    Draws likeness operation fun definition => sort definition.selections := by
  unfold operation
  refine blind_description.draws.step fun text _ => blind_operationKind.draws.step fun kind _ => ?_
  refine Blind.next.draws.step fun found _ => ?_
  dsimp only
  split
  all_goals
    refine Draws.step (Blind.draws (by first | exact Blind.name.map some | exact .done none))
      fun title _ => ?_
    refine (blind_variableDefinition.optionalBetween _ _).draws.step fun definitions _ => ?_
    exact (blind_directives false).draws.step fun directives _ => hselections.step fun _ h =>
      .done h

theorem draws_fragment :
    Draws likeness fragment fun definition => sort definition.selections := by
  refine blind_description.draws.step fun _ _ => (Blind.requireWord "fragment").draws.step ?_
  refine fun _ _ => blind_fragmentName.draws.step fun _ _ => ?_
  refine (Blind.requireWord "on").draws.step fun _ _ => Blind.name.draws.step fun _ _ => ?_
  exact (blind_directives false).draws.step fun _ _ => hselections.step fun _ h => .done h

end Selecting

section Typing

include hnil

theorem draws_typeSystem (word : String) :
    Draws likeness (typeSystem word) fun definition => sort definition.selections :=
  blind_description.draws.step fun _ _ => (Blind.requireWord word).draws.step fun _ _ =>
    (blind_typeSystemBody false word).draws.step fun _ _ => .done hnil

theorem draws_typeExtension :
    Draws likeness typeExtension fun definition => sort definition.selections := by
  refine parallel_lookAhead.step fun ahead ahead' hahead => ?_
  rw [hahead.head?]
  split
  · rename_i word _
    split
    · refine (Blind.requireWord "extend").draws.step fun _ _ => ?_
      refine (Blind.requireWord word).draws.step fun _ _ => ?_
      refine (blind_typeSystemBody true word).draws.step fun body _ => ?_
      split
      · exact .done hnil
      · exact .unexpected
    · exact .failAt rfl hahead
  · exact .failAt rfl hahead

end Typing

include hnil hselections

/-- The word that decides between definitions is the first, or the second after a description. -/
theorem parallel_decided (described : Bool) {here here' deciding deciding' : List Lexeme}
    (hhere : likeness.Matches here here') (hdeciding : likeness.Matches deciding deciding') :
    Parallel likeness (fun definition definition' => definition = definition' ∧
        sort definition.selections)
      (match deciding.head? with
        | some (.mark .braceOpen) => failAt .descriptionOnShorthand here
        | some (.name word) =>
            if typeSystemWords.contains word then typeSystem word
            else if operationWords.contains word then operation
            else if word = "fragment" then fragment
            else if described then failAt .descriptionElsewhere here
            else if word = "extend" then typeExtension
            else failAt (.unexpected (some (.name word))) deciding
        | found => failAt (.unexpected found) deciding)
      (match deciding'.head? with
        | some (.mark .braceOpen) => failAt .descriptionOnShorthand here'
        | some (.name word) =>
            if typeSystemWords.contains word then typeSystem word
            else if operationWords.contains word then operation
            else if word = "fragment" then fragment
            else if described then failAt .descriptionElsewhere here'
            else if word = "extend" then typeExtension
            else failAt (.unexpected (some (.name word))) deciding'
        | found => failAt (.unexpected found) deciding') := by
  rw [hdeciding.head?]
  split
  · exact .failAt rfl hhere
  · rename_i word _
    split
    · exact draws_typeSystem hnil word
    split
    · exact draws_operation hselections
    split
    · exact draws_fragment hselections
    split
    · exact .failAt rfl hhere
    split
    · exact draws_typeExtension hnil
    · exact .failAt rfl hdeciding
  · exact .failAt rfl hdeciding

theorem draws_definition :
    Draws likeness definition fun definition => sort definition.selections := by
  unfold definition
  refine (Blind.nextIs .braceOpen).draws.step fun opens _ => ?_
  split
  · exact draws_shorthandQuery hselections
  refine Parallel.get.step fun here here' hhere => ?_
  rw [hhere.head?]
  dsimp only
  split
  · exact parallel_lookAhead.step fun _ _ => parallel_decided hnil hselections true hhere
  · exact (Parallel.done hhere).step fun _ _ => parallel_decided hnil hselections false hhere

theorem draws_document :
    Draws likeness document fun document =>
      ∀ definition ∈ document.definitions, sort definition.selections := by
  have hdefinitions (rounds : Nat) : Draws likeness (definitionsWithin rounds) fun definitions =>
      ∀ definition ∈ definitions, sort definition.selections := by
    induction rounds with
    | zero => exact .done nofun
    | succ rounds ih =>
        refine Blind.next.draws.step fun found _ => ?_
        split
        · exact .done nofun
        · refine (draws_definition hnil hselections).step fun first hfirst => ?_
          exact ih.step fun others hothers => .done (List.forall_mem_cons.mpr ⟨hfirst, hothers⟩)
  refine (draws_definition hnil hselections).step fun first hfirst => ?_
  have hothers (rounds : Nat) : Draws likeness (do
      let others ← definitionsWithin rounds
      return { definitions := first :: others : Document }) fun document =>
        ∀ definition ∈ document.definitions, sort definition.selections :=
    (hdefinitions rounds).step fun others hothers =>
      .done (List.forall_mem_cons.mpr ⟨hfirst, hothers⟩)
  exact .count hothers

end Definitions

theorem blind_document : Blind likeness document :=
  have hselections : Draws likeness selectionSet fun _ => True := blind_selectionSet.draws
  (draws_document trivial hselections).blind

/-! ### Texts -/

/-- Lexemes that are taken for the same are read alike, from the first one on. -/
theorem likewise_run {α : Type} {reader : Reader α} (h : Blind likeness reader)
    {lexemes lexemes' : List Lexeme} (hsame : List.Forall₂ likeness.same lexemes lexemes') :
    Likewise likeness Eq (run reader lexemes) (run reader lexemes') := by
  refine (likewise_checkNext hsame).step fun checked checked' hchecked => ?_
  refine (h checked checked' hchecked).step ?_
  rintro ⟨value, rest⟩ ⟨_, rest'⟩ ⟨rfl, -⟩
  exact .ok rfl

/-- What is read from lexemes which are taken for themselves is of the sort that the reader draws. -/
theorem draws_run {α : Type} {reader : Reader α} {sort : α → Prop} (h : Draws likeness reader sort)
    {lexemes : List Lexeme} (hsame : List.Forall₂ likeness.same lexemes lexemes) :
    ∀ value, run reader lexemes = .ok value → sort value := by
  have hrun : Likewise likeness (fun value value' => value = value' ∧ sort value)
      (run reader lexemes) (run reader lexemes) := by
    refine (likewise_checkNext hsame).step fun checked checked' hchecked => ?_
    exact (h checked checked' hchecked).step fun _ _ hread => .ok hread.1
  intro value hvalue
  rw [hvalue] at hrun
  cases hrun with
  | ok hsort => exact hsort.2

theorem readText_eq_ok {α : Type} {reader : Reader α} {text : List Char} {value : α} :
    readText reader text = .ok value ↔
      run reader ((Scan.tokens text).map Scan.Token.lexeme) = .ok value := by
  rw [readText]
  split
  · rename_i found hfound
    rw [hfound]
    constructor
    · rintro ⟨⟩
      rfl
    · rintro ⟨⟩
      rfl
  · rename_i found hfound
    rw [hfound]
    exact ⟨nofun, nofun⟩

end Grammar

end QueryProjection
