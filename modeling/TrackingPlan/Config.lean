import TrackingPlan.Disk
import TrackingPlan.Format
import TrackingPlan.Toml.Reading

/-!
# Project configuration

A project may fix the arguments of the command, and the types of string
formats, in a configuration file. Its paths are relative to the directory of
the file.
-/

namespace TrackingPlan

/-- Why a configuration cannot be used. -/
inductive ConfigFault where
  | unreadable (problem : String)
  | notString (setting : String)
  | notBoolean (setting : String)
  | formatsNotTable
  | formatNotName (format : String)
  deriving DecidableEq, Repr, Inhabited

def ConfigFault.message : ConfigFault → String
  | unreadable problem => "Failed to parse config: " ++ problem
  | notString setting => "transliterate." ++ setting ++ " must be a string"
  | notBoolean setting => "transliterate." ++ setting ++ " must be a boolean"
  | formatsNotTable => "formats must be a table"
  | formatNotName format => "formats." ++ format ++ " must be a type name string"

structure Config where
  input : Option Path
  output : Option Path
  implementation : Option Path
  isAsync : Option Bool
  /-- The type names of formats, in the order of the formats. -/
  formats : List (String × String)
  deriving DecidableEq, Repr, Inhabited

namespace Config

def empty : Config := ⟨none, none, none, none, []⟩

/-- The standard formats and those of the configuration. -/
def registry (config : Config) : FormatRegistry :=
  config.formats.foldl (fun registry (format, name) => registry.register format (.named name))
    .standard

/-- A setting of the command; a configuration without its table has none. -/
def setting? (root : Toml.Value) (name : String) : Option Toml.Value :=
  (root.get? "transliterate").bind (·.get? name)

def path? (base : Path) (root : Toml.Value) (name : String) :
    Except ConfigFault (Option Path) :=
  match setting? root name with
  | none => .ok none
  | some (.string text) => .ok (some (base.join ⟨text⟩))
  | some _ => .error (.notString name)

def boolean? (root : Toml.Value) (name : String) : Except ConfigFault (Option Bool) :=
  match setting? root name with
  | none => .ok none
  | some (.boolean value) => .ok (some value)
  | some _ => .error (.notBoolean name)

def formats? (root : Toml.Value) : Except ConfigFault (List (String × String)) :=
  match root.get? "formats" with
  | none => .ok []
  | some value =>
    match value.entries? with
    | none => .error .formatsNotTable
    | some entries =>
      (entries.mergeSort fun a b => decide (a.1 ≤ b.1)).mapM fun (format, name) =>
        match name.text? with
        | some name => .ok (format, name)
        | none => .error (.formatNotName format)

/-- The configuration in a text, with paths from the base. -/
def ofText (base : Path) (text : String) : Except ConfigFault Config :=
  match Toml.Value.ofText text with
  | .error problem => .error (.unreadable problem)
  | .ok root => do
    let isAsync ← boolean? root "methods-async"
    let formats ← formats? root
    let input ← path? base root "input"
    let output ← path? base root "output"
    let implementation ← path? base root "implementation"
    return { input, output, implementation, isAsync, formats }

end Config

end TrackingPlan
