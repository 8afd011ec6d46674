import TrackingPlan.LineDiff.Hunk

/-!
# Generated files

A generated file is compared with the file on disk. The difference is shown by
hunks, with what is on disk first.
-/

namespace TrackingPlan

/-- A module that is not written yet, and the text of its file on disk, if there is one. -/
structure GeneratedFile where
  /-- The path from the output directory. -/
  path : String
  text : String
  onDisk : Option String
  deriving DecidableEq, Repr, Inhabited

/-- How a line stands out on a terminal. -/
inductive Emphasis where
  | bold
  | red
  | green
  | yellow
  deriving DecidableEq, Repr, Inhabited

def Emphasis.code : Emphasis → String
  | bold => "1"
  | red => "31"
  | green => "32"
  | yellow => "33"

/-- The text with its emphasis, where colours are on. -/
def Emphasis.apply (emphasis : Emphasis) (colours : Bool) (text : String) : String :=
  if colours then "\x1b[" ++ emphasis.code ++ "m" ++ text ++ "\x1b[0m" else text

namespace GeneratedFile

def isNew (file : GeneratedFile) : Bool := file.onDisk.isNone

def isModified (file : GeneratedFile) : Bool :=
  match file.onDisk with
  | some text => text != file.text
  | none => false

/-- The file has to be written. -/
def isStale (file : GeneratedFile) : Bool := file.isNew || file.isModified

/-- A line without its line feed. -/
def dropLineFeeds (line : String) : String :=
  String.ofList ((line.toList.reverse.dropWhile (· == '\n')).reverse)

def changeText (colours : Bool) : LineDiff.Change → String
  | .kept line => " " ++ dropLineFeeds line
  | .dropped line => Emphasis.red.apply colours ("-" ++ dropLineFeeds line)
  | .added line => Emphasis.green.apply colours ("+" ++ dropLineFeeds line)

/-- The lines of a hunk, each with its mark. -/
def hunkText (colours : Bool) (changes : List LineDiff.Change) : String :=
  String.join (changes.map fun change => changeText colours change ++ "\n")

/-- The header of a difference: what is compared. -/
def diffHeader (colours : Bool) (path : String) : String :=
  Emphasis.bold.apply colours ("--- " ++ path ++ " (on disk)") ++ "\n" ++
    Emphasis.bold.apply colours ("+++ " ++ path ++ " (generated)") ++ "\n"

/-- Three kept lines are shown around every change. -/
def contextLines : Nat := 3

/-- The difference between the file on disk and the generated text, if there is one, as their
lines compare. -/
def diffBy? (comparison : LineDiff.Comparison) (colours : Bool) (file : GeneratedFile) :
    Option String :=
  match file.onDisk with
  | none => none
  | some onDisk =>
    if onDisk = file.text then none
    else
      let old := LineDiff.linesOf onDisk
      let new := LineDiff.linesOf file.text
      let hunks := (comparison.groups contextLines (comparison.edits old new)).map
        fun edits => hunkText colours (edits.flatMap (·.changes old new))
      some (diffHeader colours file.path ++ Text.join "...\n" hunks)

def diff? (colours : Bool) (file : GeneratedFile) : Option String :=
  file.diffBy? .standard colours

end GeneratedFile

end TrackingPlan
