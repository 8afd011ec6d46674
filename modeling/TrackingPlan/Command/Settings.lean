import TrackingPlan.Command.Arguments
import TrackingPlan.Config
import TrackingPlan.Fault

/-!
# Settings of a run

What is given as an argument goes before what the configuration says. The
implementation is imported by its path from the output directory.
-/

namespace TrackingPlan.Command

/-- Why a run fails. -/
inductive RunFault where
  | unreadable (path : Path) (fault : DiskFault)
  | config (path : Path) (fault : ConfigFault)
  | noInput
  | noOutput
  /-- The empty path leads nowhere. -/
  | unresolvable (path : Path)
  | plan (path : Path) (fault : Fault)
  | noDirectory (path : Path) (fault : DiskFault)
  | unwritable (path : Path) (fault : DiskFault)
  | outOfDate (count : Nat)
  deriving DecidableEq, Repr, Inhabited

def RunFault.message : RunFault → String
  | unreadable path fault => "Failed to read " ++ path.text ++ ": " ++ fault.message
  | config path fault => path.text ++ ": " ++ fault.message
  | noInput =>
    "No tracking plan given. Pass --input or set transliterate.input in adx.toml"
  | noOutput =>
    "No output directory given. Pass --output or set transliterate.output in adx.toml"
  | unresolvable path => "Failed to resolve " ++ path.text ++ ": cannot make an empty path absolute"
  | plan path fault => path.text ++ ": " ++ fault.message
  | noDirectory path fault =>
    "Failed to create directory " ++ path.text ++ ": " ++ fault.message
  | unwritable path fault => "Failed to write " ++ path.text ++ ": " ++ fault.message
  | outOfDate count =>
    toString count ++ " generated file(s) are out of date. " ++
      "Run `adx transliterate` to regenerate them."

structure Settings where
  input : Path
  output : Path
  implementation : Option Path
  isAsync : Bool
  deriving DecidableEq, Repr, Inhabited

namespace Settings

/-- The arguments, completed by the configuration. Functions are asynchronous
unless something else is said. -/
def of (options : Options) (config : Config) : Except RunFault Settings :=
  match options.input.or config.input with
  | none => .error .noInput
  | some input =>
    match options.output.or config.output with
    | none => .error .noOutput
    | some output => .ok {
        input, output
        implementation := options.implementation.or config.implementation
        isAsync := (options.isAsync.or config.isAsync).getD true }

/-- Extensions that an import leaves out. -/
def moduleExtensions : List String := ["ts", "tsx", "js", "mjs"]

/-- The path by which a module is imported. -/
def importedPath (module : Path) : Path :=
  match module.extension? with
  | some extension => if moduleExtensions.contains extension then module.dropExtension else module
  | none => module

def resolve (workingDirectory : List String) (path : Path) : Except RunFault (List String) :=
  match path.resolve? workingDirectory with
  | some location => .ok location
  | none => .error (.unresolvable path)

/-- The path of a module from the output directory, as it is imported. -/
def implementationImport (workingDirectory : List String) (output module : Path) :
    Except RunFault String := do
  let source ← resolve workingDirectory output
  let target ← resolve workingDirectory (importedPath module)
  return Text.join "/" (Path.relative source target)

def implementationImport? (workingDirectory : List String) (settings : Settings) :
    Except RunFault (Option String) :=
  match settings.implementation with
  | none => .ok none
  | some module => some <$> implementationImport workingDirectory settings.output module

end Settings

end TrackingPlan.Command
