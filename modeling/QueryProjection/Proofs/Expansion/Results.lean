import QueryProjection.Proofs.Expansion.Settled

/-!
# What the steps of a walk give

With a source that does not change, the result of a walk is told by its outlook alone.  Each
kind of selection is described here once, as an equation between results that are all taken
from one and the same memory.
-/

namespace QueryProjection

namespace Context

variable {context : Context}

theorem result_fragment?_of_defined {name : String} {fragment : Fragment}
    (h : context.definition? name = some fragment) (memory : Memory) :
    (context.fragment? name memory).result = .ok (some fragment) := by
  rw [fragment?_of_defined h]
  rfl

theorem result_fragment?_of_undefined {name : String} (h : context.definition? name = none)
    (memory : Memory) :
    (context.fragment? name memory).result =
      if context.options.strict then .error (.undefinedFragment name) else .ok none := by
  rw [fragment?_of_undefined h]
  cases context.options.strict <;> rfl

theorem result_typeWithin (hsteady : context.Steady) (type : Option TypeName)
    (condition : Option String) (memory : Memory) :
    (context.typeWithin type condition memory).result =
      (context.outlook memory).typeWithin type condition := by
  cases htarget : context.options.target with
  | none =>
      cases type with
      | none => simp only [typeWithin, htarget]; rfl
      | some outer =>
          cases condition with
          | none => simp only [typeWithin, htarget]; rfl
          | some inner => simp only [typeWithin, htarget, Outlook.typeWithin, outlook]; rfl
  | some target =>
      cases type with
      | none => simp only [typeWithin, htarget]; rfl
      | some outer =>
          cases condition with
          | none => simp only [typeWithin, htarget]; rfl
          | some inner =>
              have hknows := finds_knows hsteady htarget inner
              simp only [typeWithin, htarget, Outlook.typeWithin, ← hknows.result memory]
              cases hr : (Compile.ofLookup
                (Registry.hasType target.source (.text inner)) memory).result with
              | error fault => rw [Compile.bind_of_error hr]
              | ok known =>
                  rw [Compile.bind_of_ok hr]
                  cases known <;> rfl

end Context

namespace Expansion

variable {context : Context} {enter : Enter} {type : Option TypeName} {filter : FieldFilter}
  {memory : Memory} {α β : Type}

structure Gives (context : Context) (memory : Memory) (computation : Compile α)
    (result : Except Fault α) : Prop where
  settled : Settled context computation
  result : (computation memory).result = result

theorem Gives.of_settled {computation : Compile α} (h : Settled context computation) :
    Gives context memory computation (computation memory).result :=
  ⟨h, rfl⟩

theorem Gives.done (value : α) : Gives context memory (pure value) (.ok value) :=
  ⟨Settled.done value, rfl⟩

theorem Gives.finds {step : Compile α} {answer : Outlook → Except Fault α}
    (h : context.Finds step answer) :
    Gives context memory step (answer (context.outlook memory)) :=
  ⟨Settled.finds h, h.result memory⟩

/-- The second of two steps may as well be started where the first one was. -/
theorem Gives.step {first : Compile α} {second : α → Compile β} {result : Except Fault α}
    {next : α → Except Fault β} (h : Gives context memory first result)
    (hsecond : ∀ value, Gives context memory (second value) (next value)) :
    Gives context memory (first >>= second) (result >>= next) := by
  refine ⟨h.settled.step fun value => (hsecond value).settled, ?_⟩
  cases hr : (first memory).result with
  | error fault =>
      rw [Compile.bind_of_error hr, ← h.result, hr]
      rfl
  | ok value =>
      rw [Compile.bind_of_ok hr, ← h.result, hr]
      have hkeeps := h.settled.keeps memory
      exact ((hsecond value).settled.result_eq hkeeps).trans (hsecond value).result

theorem writeAll_singleton (before : ProjectionMap) (selection : Selection) :
    writeAll context enter type filter before [selection] =
      writeOne context enter type filter before selection := by
  rw [writeAll_cons]
  simp only [writeAll_nil, bind_pure]

section Steps

variable (hsteady : context.Steady) (henter : SettledEnter context enter)

include hsteady henter

theorem settled_writeOne (type : Option TypeName) (filter : FieldFilter)
    (before : ProjectionMap) (selection : Selection) :
    Settled context (writeOne context enter type filter before selection) := by
  rw [← writeAll_singleton]
  exact settled_writeAll hsteady henter type filter before [selection]

theorem gives_writeAll_cons (before : ProjectionMap) (selection : Selection)
    (rest : List Selection) :
    Gives context memory (writeAll context enter type filter before (selection :: rest)) (do
      let written ← (writeOne context enter type filter before selection memory).result
      (writeAll context enter type filter written rest memory).result) := by
  rw [writeAll_cons]
  exact Gives.step (.of_settled (settled_writeOne hsteady henter type filter before selection))
    fun written => .of_settled (settled_writeAll hsteady henter type filter written rest)

theorem gives_selectionSet (type : Option TypeName) (selections : List Selection) :
    Gives context memory (selectionSet context enter type selections) (do
      let filter ← (context.outlook memory).filterAt type
      (writeAll context enter type filter [] selections memory).result) :=
  Gives.step (.finds (Context.finds_filterAt hsteady type)) fun filter =>
    .of_settled (settled_writeAll hsteady henter type filter [] selections)

theorem gives_branch (before : ProjectionMap) {name : String} {kind : FieldKind}
    (h : filter.classify name = some kind) (aliasName : Option String)
    (arguments : List Argument) (directives : List Directive) (selections : List Selection) :
    Gives context memory (writeOne context enter type filter before
        (.field aliasName name arguments directives (some selections))) (do
      let below ← (context.outlook memory).typeBelow type name kind
      let select ← (selectionSet context enter below selections memory).result
      let forwarded ← (context.forwarded arguments memory).result
      .ok (OrderedMap.insert before name (.ofParts select forwarded))) := by
  rw [writeOne_branch before h]
  refine Gives.step (.finds (Context.finds_typeBelow hsteady type name kind)) fun below => ?_
  refine Gives.step (.of_settled (settled_selectionSet hsteady henter below selections))
    fun select => ?_
  exact Gives.step (.of_settled (Settled.ofLogged _)) fun forwarded => .done _

theorem gives_spread (before : ProjectionMap) (name : String) (directives : List Directive) :
    Gives context memory (writeOne context enter type filter before (.spread name directives))
      (match context.definition? name with
      | none =>
          if context.options.strict then .error (.undefinedFragment name) else .ok before
      | some fragment => do
          let within ← (context.outlook memory).typeWithin type (some fragment.condition)
          let inner ← (enter name fragment within memory).result
          .ok (OrderedMap.merge before inner)) := by
  refine ⟨settled_writeOne hsteady henter type filter before (.spread name directives), ?_⟩
  rw [writeOne_spread]
  cases hfound : context.definition? name with
  | none =>
      have hr := Context.result_fragment?_of_undefined hfound memory
      cases hstrict : context.options.strict with
      | true =>
          simp only [hstrict, if_true] at hr
          rw [Compile.bind_of_error hr]
          rfl
      | false =>
          simp only [hstrict, Bool.false_eq_true, if_false] at hr
          rw [Compile.bind_of_ok hr]
          rfl
  | some fragment =>
      have hkeeps : context.outlook (context.fragment? name memory).memory =
          context.outlook memory := Settled.keeps (Settled.ofLogged _) memory
      have hentered : Gives context memory (do
          let within ← context.typeWithin type (some fragment.condition)
          return OrderedMap.merge before (← enter name fragment within)) (do
          let within ← (context.outlook memory).typeWithin type (some fragment.condition)
          let inner ← (enter name fragment within memory).result
          .ok (OrderedMap.merge before inner)) := by
        refine Gives.step ⟨settled_typeWithin hsteady type _,
          Context.result_typeWithin hsteady type _ memory⟩ fun within => ?_
        exact Gives.step (.of_settled (henter name fragment within)) fun inner => .done _
      rw [Compile.bind_of_ok (Context.result_fragment?_of_defined hfound memory)]
      exact (hentered.settled.result_eq hkeeps).trans hentered.result

theorem gives_inline (before : ProjectionMap) (condition : Option String)
    (directives : List Directive) (selections : List Selection) :
    Gives context memory (writeOne context enter type filter before
        (.inline condition directives selections)) (do
      let within ← (context.outlook memory).typeWithin type condition
      let inner ← (selectionSet context enter within selections memory).result
      .ok (OrderedMap.merge before inner)) := by
  rw [writeOne_inline]
  refine Gives.step ⟨settled_typeWithin hsteady type condition,
    Context.result_typeWithin hsteady type condition memory⟩ fun within => ?_
  exact Gives.step (.of_settled (settled_selectionSet hsteady henter within selections))
    fun inner => .done _

end Steps

/-! ### The start of a compilation -/

/-- If the root model is known, a compilation is the walk of the root. -/
theorem compileEntering_of_root (hsteady : context.Steady) (entering : Memory → Enter)
    (selections : Option (List Selection)) (hroot : (context.outlook memory).root = .ok ()) :
    compileEntering context entering selections memory =
      selectionSet context (entering (context.checkRoot memory).memory) context.root
        (selections.getD []) (context.checkRoot memory).memory := by
  have hfinds := Context.finds_checkRoot hsteady
  have hok : (context.checkRoot memory).result = .ok () := (hfinds.result memory).trans hroot
  rw [compileEntering, Compile.bind_of_ok hok, hfinds.quiet memory]
  rfl

/-- If the root model is not known, nothing is walked. -/
theorem compileEntering_of_unrooted (hsteady : context.Steady) (entering : Memory → Enter)
    (selections : Option (List Selection)) {fault : Fault}
    (hroot : (context.outlook memory).root = .error fault) :
    compileEntering context entering selections memory =
      { result := .error fault, notices := [], memory := (context.checkRoot memory).memory } := by
  have hfinds := Context.finds_checkRoot hsteady
  have herror : (context.checkRoot memory).result = .error fault :=
    (hfinds.result memory).trans hroot
  rw [compileEntering, Compile.bind_of_error herror, hfinds.quiet memory]

/-- Whether it succeeds or fails, a compilation leaves the outlook as it is. -/
theorem outlook_compileEntering (hsteady : context.Steady) {entering : Memory → Enter}
    (hsettled : ∀ after, SettledEnter context (entering after))
    (selections : Option (List Selection)) :
    context.outlook (compileEntering context entering selections memory).memory =
      context.outlook memory := by
  have hkeeps := (Context.finds_checkRoot hsteady).keeps memory
  cases hroot : (context.outlook memory).root with
  | error fault =>
      rw [compileEntering_of_unrooted hsteady entering selections hroot]
      exact hkeeps
  | ok =>
      rw [compileEntering_of_root hsteady entering selections hroot]
      have hwalk := settled_selectionSet hsteady (hsettled (context.checkRoot memory).memory)
        context.root (selections.getD [])
      exact (hwalk.keeps _).trans hkeeps

/-- A compilation that succeeds has walked the root, seeing what could be seen before it. -/
theorem exists_walk_of_ok (hsteady : context.Steady) {entering : Memory → Enter}
    {selections : Option (List Selection)} {map : ProjectionMap}
    (h : (compileEntering context entering selections memory).result = .ok map) :
    ∃ after, context.outlook after = context.outlook memory ∧
      (selectionSet context (entering after) context.root (selections.getD []) after).result =
        .ok map := by
  cases hroot : (context.outlook memory).root with
  | error fault =>
      rw [compileEntering_of_unrooted hsteady entering selections hroot] at h
      cases h
  | ok =>
      rw [compileEntering_of_root hsteady entering selections hroot] at h
      exact ⟨_, (Context.finds_checkRoot hsteady).keeps memory, h⟩

end Expansion

end QueryProjection
