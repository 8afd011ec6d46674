import TrackingPlan.Text.Lines

/-!
# Faults of a plan

A fault has one cause and the plan constructs it was found in, the outermost
first. All its wording is in `Cause.message` and `Fault.message`.
-/

namespace TrackingPlan

/-- Why a plan cannot be read, built or rendered. -/
inductive Cause where
  /-- No construct of the schema language can be told from the keywords. -/
  | unknownShape (detail : String)
  | emptyEnum
  | emptyUnion
  /-- A constant that is neither a text nor a finite number. -/
  | unsupportedConstant (kind : String)
  | missingField (field : String)
  /-- A value was asked of a type that has no single one. -/
  | noLiteralForm (kind : String)
  | notFound (kind name : String)
  /-- The document is not YAML, or has not the layout of a plan. -/
  | unreadable (problem : String)
  deriving DecidableEq, Repr, Inhabited

def Cause.message : Cause → String
  | unknownShape detail => "unknown type definition: " ++ detail
  | emptyEnum => "enums must have at least one value"
  | emptyUnion => "unions must have at least one option"
  | unsupportedConstant kind => "unsupported constant kind: " ++ kind
  | missingField field => "missing required field `" ++ field ++ "`"
  | noLiteralForm kind => "literal rendering is not implemented for " ++ kind
  | notFound kind name => kind ++ "(" ++ name ++ ") not found"
  | unreadable problem => "failed to parse tracking plan: " ++ problem

/-- A cause with the constructs around it, the outermost first. -/
structure Fault where
  contexts : List String
  cause : Cause
  deriving DecidableEq, Repr, Inhabited

namespace Fault

def ofCause (cause : Cause) : Fault := ⟨[], cause⟩

/-- The same fault seen from one construct further out. -/
def within (context : String) (fault : Fault) : Fault :=
  { fault with contexts := context :: fault.contexts }

def message (fault : Fault) : String :=
  Text.join ": " (fault.contexts ++ [fault.cause.message])

end Fault

/-- The result of a computation that is part of the named construct. -/
def inContext {α : Type} (context : String) : Except Fault α → Except Fault α
  | .ok value => .ok value
  | .error fault => .error (fault.within context)

end TrackingPlan
