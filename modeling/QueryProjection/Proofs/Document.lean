import Mathlib.Data.List.TakeWhile
import QueryProjection.Proofs.Conversion
import QueryProjection.Proofs.Decimal
import QueryProjection.Proofs.Expansion.Walk
import QueryProjection.Proofs.Grammar.Readers
import QueryProjection.Proofs.Scan.Leftover

/-!
# What is read from a text

`Literal.other` and `Selection.other` stand for nodes that no text produces.  For selections this is
shown here: a document that was read selects nothing of an unknown kind, be it in an operation or in
a fragment, and at no depth (`Document.known_of_read`).  Nor does it hold any text in the place of a
whole number.  What the scanner makes a whole number of is a numeral, which is digits with a minus
sign in front or without one, and the grammar takes it over as it is (`Document.legible_of_read`).

`Grammar.Draws` says of what sort the values of a reader are.  It is handed on from step to step, so
only the readers that make values and selections need a look.
-/

namespace QueryProjection

/-- Nothing of an unknown kind stands among the selections or in them. -/
def Selection.Known (selections : List Selection) : Prop :=
  ¬ Selection.Somewhere (fun selection => ∃ name, selection = .other name) selections

namespace Selection.Known

theorem nil : Known [] := fun h => nomatch h

theorem cons {selection : Selection} {rest : List Selection} (hfirst : Known [selection])
    (hrest : Known rest) : Known (selection :: rest) := by
  intro h
  cases h with
  | here h => exact hfirst (.here h)
  | nested h => exact hfirst (.nested h)
  | later h => exact hrest h

theorem of_nested {selection : Selection} (hkind : ∀ name, selection ≠ .other name)
    (hnested : Known selection.nested) : Known [selection] := by
  intro h
  cases h with
  | here h =>
      obtain ⟨name, hname⟩ := h
      exact hkind name hname
  | nested h => exact hnested h
  | later h => cases h

theorem of_forall {selections : List Selection}
    (h : ∀ selection ∈ selections, Known [selection]) : Known selections := by
  induction selections with
  | nil => exact .nil
  | cons selection rest ih =>
      rw [List.forall_mem_cons] at h
      exact .cons h.1 (ih h.2)

section Parts

variable {selection : Selection} {rest : List Selection} (h : Known (selection :: rest))

include h

theorem first : Known [selection] := by
  intro hfirst
  cases hfirst with
  | here hfirst => exact h (.here hfirst)
  | nested hfirst => exact h (.nested hfirst)
  | later hfirst => cases hfirst

theorem nested : Known selection.nested := fun hnested => h (.nested hnested)

theorem later : Known rest := fun hrest => h (.later hrest)

end Parts

theorem of_mem {selections : List Selection} (h : Known selections) :
    ∀ selection ∈ selections, Known [selection] := by
  induction selections with
  | nil => exact nofun
  | cons selection rest ih => exact List.forall_mem_cons.mpr ⟨h.first, ih h.later⟩

end Selection.Known

/-- What whole numbers occur in the value are numerals. -/
def Literal.Legible (literal : Literal) : Prop :=
  ∀ numeral, Literal.Within (.int numeral) literal → Decimal.IsNumeral numeral.toList

theorem Literal.Legible.of_nested {literal : Literal}
    (hself : ∀ numeral, literal = .int numeral → Decimal.IsNumeral numeral.toList)
    (hnested : ∀ item ∈ literal.nested, item.Legible) : literal.Legible := by
  intro numeral hwithin
  cases hwithin with
  | self => exact hself numeral rfl
  | nested hitem h => exact hnested _ hitem numeral h

theorem Literal.Legible.nested {literal : Literal} (h : literal.Legible) :
    ∀ item ∈ literal.nested, item.Legible :=
  fun _ hitem numeral hwithin => h numeral (.nested hitem hwithin)

def Field.Legible (field : Field) : Prop := ∀ argument ∈ field.arguments, argument.2.Legible

/-- Nothing of an unknown kind stands among the selections or in them, and the arguments of all
fields there are legible. -/
inductive Selection.Legible : List Selection → Prop where
  | nil : Legible []
  | cons {selection : Selection} {rest : List Selection}
      (hkind : ∀ name, selection ≠ .other name)
      (hfield : ∀ field, selection.field? = some field → field.Legible)
      (hnested : Legible selection.nested) (hrest : Legible rest) : Legible (selection :: rest)

theorem Selection.Legible.of_forall {selections : List Selection}
    (h : ∀ selection ∈ selections, Legible [selection]) : Legible selections := by
  induction selections with
  | nil => exact .nil
  | cons selection rest ih =>
      rw [List.forall_mem_cons] at h
      cases h.1 with
      | cons hkind hfield hnested _ => exact .cons hkind hfield hnested (ih h.2)

theorem Selection.Legible.nested_of_mem {selections : List Selection} (h : Legible selections) :
    ∀ {selection : Selection}, selection ∈ selections → Legible selection.nested := by
  induction h with
  | nil => exact nofun
  | cons _ _ hnested _ _ ih =>
      rintro selection (_ | ⟨_, hmem⟩)
      · exact hnested
      · exact ih hmem

theorem Selection.Legible.field {aliasName : Option String} {name : String}
    {arguments : List Argument} {directives : List Directive} {selections : Option (List Selection)}
    (harguments : ∀ argument ∈ arguments, argument.2.Legible)
    (hselections : Legible (selections.getD [])) :
    Legible [.field aliasName name arguments directives selections] := by
  refine .cons nofun ?_ ?_ .nil
  · rintro _ ⟨⟩
    exact harguments
  · cases selections with
    | none => exact .nil
    | some selections => exact hselections

theorem Selection.Legible.known {selections : List Selection} (h : Legible selections) :
    Known selections := by
  induction h with
  | nil => exact .nil
  | cons hkind _ _ _ hnested hrest => exact .cons (.of_nested hkind hnested) hrest

def Lexeme.Legible (lexeme : Lexeme) : Prop :=
  ∀ numeral, lexeme = .int numeral → Decimal.IsNumeral numeral.toList

/-! ### Lexemes -/

namespace Scan

theorem isDigit_digits {cs run rest : List Char} (h : digits cs = .ok (run, rest)) :
    ∀ c ∈ run, c.isDigit = true := by
  unfold digits at h
  split at h
  · cases h
  · cases h
    exact fun c hc => List.mem_takeWhile_imp hc

theorem isDigit_wholePart {cs run rest : List Char} (h : wholePart cs = .ok (run, rest)) :
    ∀ c ∈ run, c.isDigit = true := by
  have hzero : ∀ c ∈ ['0'], c.isDigit = true := List.forall_mem_singleton.mpr rfl
  unfold wholePart at h
  split at h
  · split at h
    · split at h
      · cases h
      · cases h
        exact hzero
    · cases h
      exact hzero
  · exact isDigit_digits h

theorem minus_cases (cs : List Char) : (minus cs).1 = [] ∨ (minus cs).1 = ['-'] := by
  unfold minus
  split
  · exact Or.inr rfl
  · exact Or.inl rfl

theorem legible_numeral {cs rest : List Char} {lexeme : Lexeme}
    (h : numeral cs = .ok (lexeme, rest)) : lexeme.Legible := by
  obtain ⟨whole, _, fractionPart, _, exponentPart, hwhole, -, -, rfl⟩ := exists_of_numeral h
  split
  · rename_i hparts
    rw [Bool.and_eq_true, List.isEmpty_iff, List.isEmpty_iff] at hparts
    obtain ⟨rfl, rfl⟩ := hparts
    rintro _ ⟨⟩
    refine ⟨(minus cs).1, whole, ?_, minus_cases cs, isDigit_wholePart hwhole⟩
    rw [String.toList_ofList, List.append_nil, List.append_nil]
  · exact nofun

theorem legible_lexeme {c : Char} {rest last : List Char} {found : Lexeme}
    (h : lexeme c rest = .ok (found, last)) : found.Legible := by
  rcases numeral_of_lexeme h with hnumeral | ⟨_, rfl⟩ | ⟨_, rfl⟩ | ⟨_, _, rfl⟩
  · exact legible_numeral hnumeral
  · exact nofun
  · exact nofun
  · exact nofun

theorem legible_tokensWithin (fuel : Nat) (cs : List Char) :
    ∀ token ∈ tokensWithin fuel cs, token.lexeme.Legible := by
  induction fuel generalizing cs with
  | zero => rintro token ⟨⟩
  | succ fuel ih =>
      cases cs with
      | nil => rintro token ⟨⟩
      | cons c rest =>
          rw [tokensWithin]
          split
          · exact ih rest
          split
          · exact ih _
          split
          · rename_i hread
            exact List.forall_mem_cons.mpr ⟨legible_lexeme hread, ih _⟩
          · rintro token htoken
            rw [List.mem_singleton] at htoken
            subst htoken
            rintro numeral ⟨⟩

end Scan

/-! ### Values and selections -/

namespace Grammar

def Likeness.legible : Likeness where
  same lexeme lexeme' := lexeme = lexeme' ∧ lexeme.Legible
  alike h := by
    rw [h.1]
    exact .same _

theorem draws_next : Draws .legible next fun found => ∀ lexeme, found = some lexeme →
    lexeme.Legible := by
  refine Parallel.get.step fun lexemes lexemes' hmatch => ?_
  refine Parallel.done ⟨by rw [hmatch.head?], fun lexeme hhead => ?_⟩
  cases hmatch.forall₂ with
  | nil => cases hhead
  | cons hfirst _ =>
      cases hhead
      exact hfirst.2

theorem draws_variableLiteral (constant : Bool) :
    Draws .legible (variableLiteral constant) Literal.Legible := by
  refine Parallel.get.step fun lexemes lexemes' hmatch => ?_
  refine Parallel.step (Blind.require .dollar) fun _ _ _ => ?_
  split
  · refine Parallel.step Blind.next ?_
    rintro found _ rfl
    split
    · exact .failAt rfl hmatch
    · rw [hmatch.head?]
      exact .failAt rfl hmatch
  · exact Blind.name.draws.step fun value _ => .done (.of_nested nofun nofun)

theorem legible_namedLiteral (word : String) : (namedLiteral word).Legible := by
  unfold namedLiteral
  split
  · exact .of_nested nofun nofun
  split
  · exact .of_nested nofun nofun
  split
  · exact .of_nested nofun nofun
  · exact .of_nested nofun nofun

theorem draws_literalWithin (constant : Bool) (depth : Nat) :
    Draws .legible (literalWithin constant depth) Literal.Legible := by
  induction depth with
  | zero => exact .unexpected
  | succ depth ih =>
      have hfield : Draws .legible (do
          let fieldName ← name
          require .colon
          return (fieldName, ← literalWithin constant depth))
          fun field : String × Literal => field.2.Legible :=
        Blind.name.draws.step fun fieldName _ => (Blind.require .colon).draws.step fun _ _ =>
          ih.step fun value hvalue => .done hvalue
      unfold literalWithin
      refine draws_next.step fun found hfound => ?_
      split
      · exact (ih.anyBetween _ _).step fun items hitems => .done (.of_nested nofun hitems)
      · refine (hfield.anyBetween _ _).step fun fields hfields => .done (.of_nested nofun ?_)
        exact List.forall_mem_map.mpr hfields
      · exact draws_variableLiteral constant
      · rename_i numeral
        refine Blind.advance.draws.step fun _ _ => .done (.of_nested ?_ nofun)
        rintro _ ⟨⟩
        exact hfound _ rfl numeral rfl
      · exact Blind.advance.draws.step fun _ _ => .done (.of_nested nofun nofun)
      · exact Blind.advance.draws.step fun _ _ => .done (.of_nested nofun nofun)
      · exact Blind.advance.draws.step fun _ _ => .done (legible_namedLiteral _)
      · exact .unexpected

theorem draws_arguments (constant : Bool) :
    Draws .legible (arguments constant) fun arguments =>
      ∀ argument ∈ arguments, argument.2.Legible := by
  have hliteral : Draws .legible (literal constant) Literal.Legible :=
    .count fun _ => draws_literalWithin constant _
  have hargument : Draws .legible (argument constant) fun argument => argument.2.Legible :=
    Blind.name.draws.step fun name _ => (Blind.require .colon).draws.step fun _ _ =>
      hliteral.step fun value hvalue => .done hvalue
  exact hargument.optionalBetween _ _

section Selections

variable {nested : Reader (List Selection)} (h : Draws .legible nested Selection.Legible)

include h

theorem draws_field : Draws .legible (field nested) fun selection =>
    Selection.Legible [selection] := by
  unfold field
  refine Blind.name.draws.step fun first _ => (Blind.accept .colon).draws.step fun renamed _ => ?_
  dsimp only
  split
  all_goals
    refine Draws.step (Blind.draws (by first | exact Blind.name.map some | exact .done none))
      fun second _ => ?_
    refine (draws_arguments false).step fun arguments harguments => ?_
    refine (blind_directives false).draws.step fun directives _ => ?_
    refine (Blind.nextIs .braceOpen).draws.step fun opens _ => ?_
    split
    · simp only [map_eq_pure_bind, bind_assoc, pure_bind]
      refine h.step fun selections hselections => ?_
      cases second <;> exact .done (.field harguments hselections)
    · simp only [pure_bind]
      cases second <;> exact .done (.field harguments .nil)

theorem draws_spread : Draws .legible (spread nested) fun selection =>
    Selection.Legible [selection] := by
  unfold spread
  refine (Blind.require .spread).draws.step fun _ _ => ?_
  refine (Blind.acceptWord "on").draws.step fun conditional _ => ?_
  split
  · refine Blind.name.draws.step fun condition _ => ?_
    refine (blind_directives false).draws.step fun directives _ => ?_
    exact h.step fun selections hselections => .done (.cons nofun nofun hselections .nil)
  · refine Blind.next.draws.step fun following _ => ?_
    split
    · refine blind_fragmentName.draws.step fun fragment _ => ?_
      exact (blind_directives false).draws.step fun directives _ => .done (.cons nofun nofun .nil .nil)
    · refine (blind_directives false).draws.step fun directives _ => ?_
      exact h.step fun selections hselections => .done (.cons nofun nofun hselections .nil)

end Selections

theorem draws_selectionSetWithin (depth : Nat) :
    Draws .legible (selectionSetWithin depth) Selection.Legible := by
  induction depth with
  | zero => exact .unexpected
  | succ depth ih =>
      have hselection : Draws .legible (do
          if ← nextIs .spread then spread (selectionSetWithin depth)
          else field (selectionSetWithin depth)) fun selection => Selection.Legible [selection] := by
        refine (Blind.nextIs .spread).draws.step fun spreads _ => ?_
        split
        · exact draws_spread ih
        · exact draws_field ih
      exact (hselection.someBetween .braceOpen .braceClose).mono fun _ => .of_forall

theorem draws_selectionSet : Draws .legible selectionSet Selection.Legible :=
  .count fun _ => draws_selectionSetWithin _

end Grammar

namespace Document

theorem legible_of_read {text : List Char} {document : Document}
    (h : Document.read text = .ok document) :
    ∀ definition ∈ document.definitions, Selection.Legible definition.selections := by
  have hlexemes : List.Forall₂ Grammar.Likeness.legible.same
      ((Scan.tokens text).map Scan.Token.lexeme) ((Scan.tokens text).map Scan.Token.lexeme) := by
    rw [List.forall₂_same]
    refine List.forall_mem_map.mpr fun token htoken => ⟨rfl, ?_⟩
    exact Scan.legible_tokensWithin _ _ token htoken
  have hdocument := Grammar.draws_run (Grammar.draws_document .nil Grammar.draws_selectionSet)
    hlexemes
  exact hdocument document (Grammar.readText_eq_ok.mp h)

/-- Nothing of an unknown kind is selected in a document that was read. -/
theorem known_of_read {text : List Char} {document : Document}
    (h : Document.read text = .ok document) :
    ∀ definition ∈ document.definitions, Selection.Known definition.selections :=
  fun definition hmem => (legible_of_read h definition hmem).known

/-- The node is a field of the document, in an operation or in a fragment. -/
def HasField (document : Document) (node : Field) : Prop :=
  ∃ definition ∈ document.definitions,
    Selection.Somewhere (fun selection => selection.field? = some node) definition.selections

/-- Nor is anything of an unknown kind selected by a field of the document. -/
theorem known_of_hasField {text : List Char} {document : Document}
    (hread : Document.read text = .ok document) {node : Field} (h : document.HasField node) :
    Selection.Known (node.selectionSet.getD []) := by
  obtain ⟨definition, hmem, hfield⟩ := h
  have hknown : Selection.Known definition.selections := known_of_read hread definition hmem
  generalize definition.selections = selections at hfield hknown
  induction hfield with
  | @here selection rest hnode =>
      cases selection with
      | field aliasName name arguments directives selections =>
          cases hnode
          cases selections with
          | none => exact .nil
          | some selections => exact hknown.nested
      | spread _ _ | inline _ _ _ | other _ => cases hnode
  | nested _ ih => exact ih hknown.nested
  | later _ ih => exact ih hknown.later

theorem fragment_of_fragments {document : Document} {name : String} {fragment : Fragment}
    (h : OrderedMap.get? document.fragments name = some fragment) :
    .fragment fragment ∈ document.definitions := by
  unfold fragments at h
  rw [OrderedMap.get?_ofList, Option.map_eq_some_iff] at h
  obtain ⟨⟨_, _⟩, hlast, rfl⟩ := h
  obtain ⟨definition, hmem, hentry⟩ :=
    List.mem_filterMap.mp (List.mem_of_mem_filter (List.mem_of_getLast? hlast))
  cases definition with
  | fragment defined =>
      cases hentry
      exact hmem
  | operation _ | typeSystem _ _ | typeExtension _ => cases hentry

end Document

end QueryProjection
