import QueryProjection.Source.Basic

/-!
# Options of a compilation

Which names to leave out, whether to refuse what cannot be resolved, and whether to filter
by model.  Filtering needs both a source of model fields and the model that the root
selects from, so the two come together in a `Target`.  `Options.check` makes options of
what a caller gives and refuses what does not fit together.
-/

namespace QueryProjection

/-- Where model fields come from, and the model that the root selects from. -/
structure Target where
  source : Source
  model : String

structure Options where
  exclude : List String
  target : Option Target
  strict : Bool

/-- No exclusions, no filtering by model, nothing refused. -/
def Options.default : Options := { exclude := [], target := none, strict := false }

/-- What a caller gives for the names to leave out. -/
inductive Exclusion where
  | names (names : List String)
  | text (value : String)
  deriving DecidableEq, Repr

inductive OptionsFault where
  | sourceWithoutModel
  | modelWithoutSource (model : String)
  | excludeIsText (value : String)
  deriving DecidableEq, Repr

/-- The words of a fault.  A source has no name, so there is nothing to say of one that
came alone. -/
def OptionsFault.message? : OptionsFault → Option String
  | .sourceWithoutModel => none
  | .modelWithoutSource model =>
      some s!"Schema-aware filtering requires both a registry and a model name, but received registry=None and model_name={model}."
  | .excludeIsText value =>
      some s!"Expected a collection of field names for \"exclude_fields\", but received the string \"{value}\"."

def Options.check (exclude : Exclusion) (source : Option Source) (model : Option String)
    (strict : Bool) : Except OptionsFault Options := do
  let target ← match source, model with
    | some source, some model => pure (some { source, model : Target })
    | none, none => pure none
    | some _, none => throw .sourceWithoutModel
    | none, some model => throw (.modelWithoutSource model)
  match exclude with
  | .names names => return { exclude := names, target, strict }
  | .text value => throw (.excludeIsText value)

end QueryProjection
