import TrackingPlan.Dict
import TrackingPlan.Schema.Fragment

/-!
# The document of a plan

A plan document has events in two sections and named types in two more. Which
section an event is in decides what it is.
-/

namespace TrackingPlan

/-- A screen or a track as it is written in a plan. -/
structure EventDefinition where
  key : Option String
  /-- The name that is reported; the key where there is none. -/
  name : Option String
  description : Option String
  features : List String
  /-- The keys of the tracks fired on a screen. Means nothing for a track. -/
  tracks : List String
  additionalProperties : Option Bool
  loginRequired : Option Bool
  required : Option (List String)
  properties : Option (Dict Fragment)

namespace EventDefinition

def empty : EventDefinition := ⟨none, none, none, [], [], none, none, none, none⟩

instance : Inhabited EventDefinition := ⟨empty⟩

/-- The payload of an event as a fragment. Further properties are refused
unless the event allows them. -/
def payload (definition : EventDefinition) : Fragment where
  keywords := { Keywords.none with
    type := some "object"
    required := some (definition.required.getD []) }
  oneOf := none
  properties := some (definition.properties.getD .empty).entries
  additional := some (.flag (definition.additionalProperties.getD false))
  items := none

end EventDefinition

/-- A plan document. An event may be left empty. -/
structure PlanDefinition where
  tracks : Dict (Option EventDefinition)
  screens : Dict (Option EventDefinition)
  definitions : Dict Fragment
  traits : Dict Fragment

instance : Inhabited PlanDefinition := ⟨⟨.empty, .empty, .empty, .empty⟩⟩

end TrackingPlan
