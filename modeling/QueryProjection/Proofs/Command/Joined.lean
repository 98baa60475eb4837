import QueryProjection.Proofs.Command.Entries
import QueryProjection.Proofs.Grammar.Readers
import QueryProjection.Proofs.Scan.JoinedLines
import QueryProjection.Proofs.Scan.JoinedPlaces

/-!
# The command reads the document it was given

The command joins the lines of its input with a blank.  Between lexemes and in comments the blanks
do not count, no string but a block string goes beyond a line, and in a block string a blank in
front of every line but the first is indentation that all these lines have in common.  So the same
lexemes are found, except that an escape which a line break interrupts may be shown with a blank in
it, and to that the grammar is blind.  Hence the same texts are documents, of the same definitions
(`read_joinLines`), and a run projects the document that its input holds (`projects_its_input`).

Of a text that is no document the same fault is reported, but its place is the one in the joined
lines.  That is right on the first line, and one column too far to the right on any later line
(`ending_eq_notADocument`).
-/

namespace QueryProjection

/-! ### Faults -/

/-- What is reported of joined lines where this is wrong with the lines. -/
def SyntaxFault.respaced : SyntaxFault → SyntaxFault
  | .lexical fault => .lexical fault.respaced
  | fault => fault

theorem SyntaxFault.eq_respaced {fault fault' : SyntaxFault}
    (h : Grammar.Likeness.respaced.Faults fault fault') : fault' = fault.respaced := by
  cases h with
  | lexical h =>
      cases h
      rfl
  | grammar hfault =>
      cases fault with
      | lexical fault => cases hfault
      | expected | unexpected | variableInConstant | descriptionOnShorthand
      | descriptionElsewhere | reservedEnumValue => rfl

namespace Command

/-! ### Reading -/

theorem place_joinLines {text : List Char} (h : '\r' ∉ text) (remaining : Nat) :
    Grammar.place (joinLines text) (Scan.tokens (joinLines text)) remaining =
      joinedPlace text (Grammar.place text (Scan.tokens text) remaining) := by
  have htokens := Scan.respaced_tokens h
  have hrest := List.forall₂_drop ((Scan.tokens text).length - remaining) htokens
  unfold Grammar.place
  rw [← htokens.length_eq]
  generalize (Scan.tokens text).drop _ = rest at hrest ⊢
  generalize (Scan.tokens (joinLines text)).drop _ = rest' at hrest ⊢
  cases hrest with
  | nil => exact place_left h List.nil_suffix
  | cons htoken _ =>
      obtain ⟨left, hleft, hremaining, hremaining'⟩ := htoken.left
      dsimp only [List.head?_cons]
      rw [hremaining, hremaining']
      exact place_left h hleft

/-- What is reported of the joined lines of a text where this is wrong with the text. -/
def reportedOf (text : List Char) (found : SyntaxError) : SyntaxError :=
  { fault := found.fault.respaced, place := joinedPlace text found.place }

/-- Joined lines are read as the text is, and only what is reported of a fault differs. -/
theorem read_joinLines_eq {text : List Char} (h : '\r' ∉ text) :
    Document.read (joinLines text) = (Document.read text).mapError (reportedOf text) := by
  have hblind : Grammar.Blind .respaced Grammar.document := Grammar.blind_document
  have halike := Grammar.likewise_run hblind (Scan.alike_lexemes h)
  rw [Document.read, Document.read, Grammar.readText, Grammar.readText]
  generalize Grammar.run _ _ = result at halike ⊢
  generalize Grammar.run _ _ = result' at halike ⊢
  cases halike with
  | ok hsame =>
      cases hsame
      rfl
  | error hfault remaining =>
      dsimp only
      rw [place_joinLines h, SyntaxFault.eq_respaced hfault]
      rfl

theorem read_joinLines {text : List Char} (h : '\r' ∉ text) (document : Document) :
    Document.read (joinLines text) = .ok document ↔ Document.read text = .ok document := by
  rw [read_joinLines_eq h, mapError_eq_ok]

theorem read_task_joinLines {arguments : List String} {text : List Char} (h : '\r' ∉ text)
    {task : Task} : task.Read arguments (joinLines text) ↔ task.Read arguments text := by
  constructor
  · rintro ⟨hsettings, hbindings, hdocument, hexclude, hoperation⟩
    exact ⟨hsettings, hbindings, (read_joinLines h _).mp hdocument, hexclude, hoperation⟩
  · rintro ⟨hsettings, hbindings, hdocument, hexclude, hoperation⟩
    exact ⟨hsettings, hbindings, (read_joinLines h _).mpr hdocument, hexclude, hoperation⟩

/-- A run projects the document that its input holds: joining the lines neither makes a document of
a text that is none, nor the other way round, nor changes the document.  So the run projects what
is projected without joining, and writes that. -/
theorem projects_its_input (arguments : List String) (input : String) :
    (∀ document, Document.read (joinLines (Text.unifyBreaks input.toList)) = .ok document ↔
        Document.read (Text.unifyBreaks input.toList) = .ok document) ∧
      (∀ projected, prepare arguments input = .ok projected ↔
        prepareText arguments (Text.unifyBreaks input.toList) = .ok projected) ∧
      ∀ text, (run arguments input).ending = .written text ↔
        ∃ (task : Task) (projections : OrderedMap String Datum),
          task.Read arguments (Text.unifyBreaks input.toList) ∧
          (projectOver task.settings.aggregate task.context []
            task.operation.rootFields).result = .ok projections ∧
          text = String.ofList (Json.write (.object projections)) := by
  have hreturn := not_mem_unifyBreaks input.toList
  refine ⟨read_joinLines hreturn, fun projected => ?_, fun text => ?_⟩
  · rw [prepare, prepareText_eq_ok, prepareText_eq_ok]
    simp only [read_task_joinLines hreturn]
  · rw [ending_eq_written]
    simp only [read_task_joinLines hreturn]

/-! ### Faults of the input -/

/-- A run reports that its input is not a document just if it is none and the settings and the bindings
are in order.  It reports the fault of the input and the line of it.  The column is right on the first
line and behind a break at the end; on all other lines it is one too far to the right. -/
theorem ending_eq_notADocument (arguments : List String) (input : String) (reported : SyntaxError) :
    (run arguments input).ending = .failed (.notADocument reported) ↔
      ∃ (settings : Settings) (bindings : Bindings) (found : SyntaxError),
        Settings.ofArguments arguments = .ok settings ∧
        readBindings settings.bindings = .ok bindings ∧
        Document.read (Text.unifyBreaks input.toList) = .error found ∧
        reported.fault = found.fault.respaced ∧
        reported.place.line = found.place.line ∧
        reported.place.column = found.place.column +
          if 1 < found.place.line ∧
            found.place.line ≤ lineCount (Text.unifyBreaks input.toList) then 1 else 0 := by
  have hread := read_joinLines_eq (not_mem_unifyBreaks input.toList)
  rw [ending_eq_of_prepare rfl (by rintro _ ⟨⟩), prepare, prepareText_eq_error rfl]
  generalize Text.unifyBreaks input.toList = text at hread ⊢
  constructor
  · rintro (⟨-, hending⟩ |
      ⟨settings, bindings, found', hsettings, hbindings, hread', hending⟩)
    · cases hending
    rw [hread] at hread'
    cases hfound : Document.read text with
    | ok document =>
        rw [hfound] at hread'
        cases hread'
    | error found =>
        rw [hfound] at hread'
        cases hread'
        cases hending
        exact ⟨settings, bindings, found, hsettings, hbindings, rfl, rfl, eq_joinedPlace.mp rfl⟩
  · rintro ⟨settings, bindings, found, hsettings, hbindings, hfound, hfault, hplace⟩
    refine Or.inr ⟨settings, bindings, reportedOf text found, hsettings, hbindings, ?_, ?_⟩
    · rw [hread, hfound]
      rfl
    · rw [reportedOf, ← hfault, ← eq_joinedPlace.mpr hplace]

/-- The closing bracket is the first character of its line, and is reported as the second. -/
theorem bracket_misplaced :
    Document.read (Text.unifyBreaks "\x7b\n]".toList) =
        .error { fault := .expected .name (some (.mark .bracketClose)),
                 place := { line := 2, column := 1 } } ∧
      (run [] "\x7b\n]").ending =
        .failed (.notADocument { fault := .expected .name (some (.mark .bracketClose)),
                                 place := { line := 2, column := 2 } }) :=
  ⟨rfl, rfl⟩

end Command

end QueryProjection
