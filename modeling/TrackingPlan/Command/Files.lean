import TrackingPlan.Command.Settings
import TrackingPlan.GeneratedFile
import TrackingPlan.Layout

/-!
# Generated files on disk

Every module of a plan is rendered and compared with its file before anything
is written. Files that are up to date are left alone.
-/

namespace TrackingPlan.Command

variable {m : Type → Type} [Monad m] [Disk m]

/-- A run that may fail. -/
abbrev Run (m : Type → Type) := ExceptT RunFault m

/-- A result, or the fault that stands for its reason. -/
def orFail {α : Type} (fault : DiskFault → RunFault) (result : m (Except DiskFault α)) : Run m α :=
  ExceptT.mk (Except.mapError fault <$> result)

def readText (path : Path) : Run m String := orFail (.unreadable path) (Disk.readText path)

/-- The path of a module from the output directory. -/
def modulePath (segments : List String) : String := Text.join "/" segments ++ ".ts"

/-- The file that a module is compared with: its segments followed one by one
from the output directory. -/
def comparedPath (output : Path) : List String → Path
  | [] => output
  | [last] => output.join ⟨last ++ ".ts"⟩
  | segment :: next :: rest => comparedPath (output.join ⟨segment⟩) (next :: rest)

/-- The file that a module is written to. -/
def writtenPath (output : Path) (file : GeneratedFile) : Path := output.join ⟨file.path⟩

/-- The text of a file, if there is a file. -/
def readExisting (path : Path) : Run m (Option String) := do
  if ← (Disk.isFile path : m Bool) then return some (← readText path) else return none

/-- A module as a file, with what is on disk in its place. -/
def renderFile (output : Path) (group : ModuleGroup) : Run m GeneratedFile := do
  let onDisk ← readExisting (comparedPath output group.path)
  return { path := modulePath group.path, text := TypeScript.moduleText group.items, onDisk }

def renderFiles (output : Path) (groups : List ModuleGroup) : Run m (List GeneratedFile) :=
  groups.mapM (renderFile output)

/-- Write a file, after the directories on the way to it. -/
def writeFile (output : Path) (file : GeneratedFile) : Run m Unit := do
  let target := writtenPath output file
  if let some parent := target.parent? then
    orFail (.noDirectory parent) (Disk.makeDirectories parent)
  orFail (.unwritable target) (Disk.writeText target file.text)

/-- Write the files that are not up to date, in their order. -/
def writeFiles (output : Path) (files : List GeneratedFile) : Run m Unit :=
  (files.filter (·.isStale)).forM (writeFile output)

end TrackingPlan.Command
