import QueryProjection.TypeName

/-!
# Notices

What a compilation reports beside its result.  Most notices say that something was left
out; the constructors name the cause, and `Notice.message` is the only place that words it.

A notice is recorded under its channel, which tells what was at work when it was made: the walk
over selections, the look-up of fragments and variables, the conversion of values, or the reading
of aggregates.
-/

namespace QueryProjection

inductive Level where
  | debug
  | warning
  deriving DecidableEq, Repr

/-- What was at work when a notice was made. -/
inductive Channel where
  | selections
  | resolution
  | conversion
  | aggregates
  deriving DecidableEq, Repr

def Channel.name : Channel → String
  | .selections => "graphql_projection.selection_parsing"
  | .resolution => "graphql_projection.resolution"
  | .conversion => "graphql_projection.value_conversion"
  | .aggregates => "graphql_projection.aggregate_extraction"

inductive Notice where
  | fieldDropped (field : String) (type : Option TypeName)
  | conditionUnknown (condition : String) (type : TypeName)
  | fragmentUndefined (fragment : String)
  | variableUnbound (name : String)
  | valueUnrecognized (kind : String)
  | selectionIgnored (selection : String)
  deriving DecidableEq, Repr

namespace Notice

/-- Variables are left out routinely, undefined fragments are not. -/
def level : Notice → Level
  | .fragmentUndefined _ | .valueUnrecognized _ => .warning
  | .fieldDropped _ _ | .conditionUnknown _ _ | .variableUnbound _ | .selectionIgnored _ => .debug

def channel : Notice → Channel
  | .fieldDropped _ _ | .conditionUnknown _ _ => .selections
  | .fragmentUndefined _ | .variableUnbound _ => .resolution
  | .valueUnrecognized _ => .conversion
  | .selectionIgnored _ => .aggregates

def message : Notice → String
  | .fieldDropped field type =>
      let typeName := (type.map TypeName.written).getD "None"
      s!"Leaving field {field} of type {typeName} out of the projection."
  | .conditionUnknown condition type =>
      s!"Type condition {condition} is not a model type, filtering by {type.written} instead."
  | .fragmentUndefined fragment => s!"Skipping spread of undefined fragment {fragment}."
  | .variableUnbound name => s!"Variable ${name} has no value."
  | .valueUnrecognized kind => s!"Ignoring value node of unrecognized kind {kind}."
  | .selectionIgnored selection =>
      s!"Ignoring non-field selection {selection} in aggregate selection."

/-- Does the notice stand for something that strict compilation refuses?  This is so on the channels
of resolution and of conversion. -/
def isDegradation (notice : Notice) : Bool :=
  notice.channel == .resolution || notice.channel == .conversion

end Notice

end QueryProjection
