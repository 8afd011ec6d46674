import TrackingPlan.Dict

/-!
# String formats

A registry says as which type a string of a known format is rendered. A string
of any other format stays a plain string.
-/

namespace TrackingPlan

inductive FormatTarget where
  | date
  /-- A type name that is written as it is. -/
  | named (name : String)
  deriving DecidableEq, Repr, Inhabited

structure FormatRegistry where
  formats : Dict FormatTarget

namespace FormatRegistry

def empty : FormatRegistry := ⟨.empty⟩

def register (format : String) (target : FormatTarget) (registry : FormatRegistry) :
    FormatRegistry :=
  ⟨registry.formats.insert format target⟩

def resolve? (registry : FormatRegistry) (format : String) : Option FormatTarget :=
  registry.formats.get? format

def size (registry : FormatRegistry) : Nat := registry.formats.entries.length

/-- The one format that needs no registration. -/
def standard : FormatRegistry := empty.register "date-time" .date

instance : Inhabited FormatRegistry := ⟨standard⟩

end FormatRegistry

end TrackingPlan
