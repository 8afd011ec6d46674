import TrackingPlan.Yaml.Tag

/-!
# Tokens of a document

The indicators, properties and scalars of a document in order. Block
collections have explicit starts and ends here, which the text has only as
indentation.
-/

namespace TrackingPlan.Yaml

/-- How a scalar is written. -/
inductive Style where
  | plain
  | singleQuoted
  | doubleQuoted
  | literal
  | folded
  deriving DecidableEq, Repr, Inhabited

inductive Token where
  | versionDirective (major minor : Nat)
  | tagDirective (handle : String) (expansion : Tag)
  | documentStart
  | documentEnd
  | blockSequenceStart
  | blockMappingStart
  | blockEnd
  | flowSequenceStart
  | flowSequenceEnd
  | flowMappingStart
  | flowMappingEnd
  | blockEntry
  | flowEntry
  | key
  | value
  | alias (name : String)
  | anchor (name : String)
  /-- The handle is empty for a tag that is written in full. -/
  | tag (handle : String) (suffix : Tag)
  | scalar (style : Style) (text : String)
  deriving DecidableEq, Repr, Inhabited

/-- A token with the place where it starts. -/
structure Lexeme where
  token : Token
  line : Nat
  column : Nat
  deriving Inhabited

end TrackingPlan.Yaml
