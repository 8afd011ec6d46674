import TrackingPlan.Command.Files
import TrackingPlan.Schema.Reading

/-!
# Runs of the command

A run prints, may fail, and ends with an exit code: 0 when all went well, 1 when
the run failed, 2 when its arguments are not understood.
-/

namespace TrackingPlan.Command

/-- What a run leaves besides its files. -/
structure Outcome where
  code : Nat
  /-- What is printed on the standard output. -/
  printed : String
  /-- What is printed on the standard error output. -/
  problem : String
  deriving DecidableEq, Repr, Inhabited

namespace Outcome

def ok (printed : String) : Outcome := ⟨0, printed, ""⟩

def failed (printed : String) (fault : RunFault) : Outcome := ⟨1, printed, fault.message ++ "\n"⟩

def misused (fault : UsageFault) : Outcome := ⟨2, "", fault.message ++ "\n"⟩

end Outcome

variable {m : Type → Type} [Monad m] [Disk m]

/-- The configuration that is read when none is asked for, if it is there. -/
def defaultConfig : Path := ⟨"adx.toml"⟩

/-- The configuration in a file. Its paths start from the directory of the file. -/
def readConfig (path : Path) : Run m Config := do
  let text ← readText path
  match Config.ofText (path.parent?.getD ⟨""⟩) text with
  | .ok config => return config
  | .error fault => throw (.config path fault)

def loadConfig : Option Path → Run m Config
  | some path => readConfig path
  | none => do
    if ← (Disk.isFile defaultConfig : m Bool) then readConfig defaultConfig else return .empty

/-- The modules of the plan in a text. -/
def planGroups (formats : FormatRegistry) (options : LayoutOptions) (text : String) :
    Except Fault (List ModuleGroup) := do
  let plan ← Plan.ofDefinition formats (← PlanDefinition.ofText text)
  return mergeGroups (← plan.toGroups options)

/-- Everything that a run needs to know before it writes: the output directory
and the files in it. -/
def prepare (options : Options) : Run m (Path × List GeneratedFile) := do
  let config ← loadConfig options.config
  let settings ← ExceptT.mk (pure (Settings.of options config))
  let workingDirectory ← (Disk.workingDirectory : m (List String))
  let implementation ← ExceptT.mk (pure (settings.implementationImport? workingDirectory))
  let text ← readText settings.input
  match planGroups config.registry ⟨implementation, settings.isAsync⟩ text with
  | .ok groups => return (settings.output, ← renderFiles settings.output groups)
  | .error fault => throw (.plan settings.input fault)

/-- The mark in front of a good result. -/
def tick (colours : Bool) : String := Emphasis.green.apply colours "✓"

/-- What is said about written files. -/
def writtenText (colours : Bool) (output : Path) (files : List GeneratedFile) : String :=
  let created := files.countP (·.isNew)
  let modified := files.countP (·.isModified)
  tick colours ++ " Generated " ++ toString files.length ++ " file(s) in " ++ output.text ++ ": " ++
    toString created ++ " created, " ++ toString modified ++ " modified, " ++
    toString (files.length - created - modified) ++ " unchanged\n"

/-- The list of files that are missing. -/
def missingText (colours : Bool) (files : List GeneratedFile) : String :=
  if files.isEmpty then ""
  else
    Emphasis.yellow.apply colours "Missing files:" ++ "\n" ++
      String.join (files.map fun file =>
        "  " ++ Emphasis.green.apply colours "+" ++ " " ++ file.path ++ "\n") ++ "\n"

/-- What is out of date: missing files, and what would change in the others. -/
def staleText (colours : Bool) (files : List GeneratedFile) : String :=
  missingText colours (files.filter (·.isNew)) ++
    String.join ((files.filterMap (·.diff? colours)).map (· ++ "\n"))

/-- The outcome of a check. -/
def check (colours : Bool) (files : List GeneratedFile) : Outcome :=
  match files.countP (·.isStale) with
  | 0 => .ok (tick colours ++ " All " ++ toString files.length ++
      " generated file(s) are up to date.\n")
  | stale => .failed (staleText colours files) (.outOfDate stale)

/-- Generate the modules of a plan, or check those on disk. -/
def generate (colours : Bool) (options : Options) : m Outcome := do
  match ← (prepare options : Run m _).run with
  | .error fault => return .failed "" fault
  | .ok (output, files) =>
    if options.isCheck then return check colours files
    else
      match ← (writeFiles output files : Run m _).run with
      | .error fault => return .failed "" fault
      | .ok () => return .ok (writtenText colours output files)

/-- Run the command. -/
def run (colours : Bool) (arguments : List String) : m Outcome :=
  match Request.ofArguments arguments with
  | .error fault => return .misused fault
  | .ok .overview => return .ok (Topic.program.text ++ "\n")
  | .ok (.help topic) => return .ok topic.text
  | .ok .version => return .ok versionText
  | .ok (.generate options) => generate colours options

end TrackingPlan.Command
