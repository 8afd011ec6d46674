import TrackingPlan.Path

/-!
# Disks

What a program can do with files. A disk answers with the reasons that an
operating system gives.
-/

namespace TrackingPlan

/-- Why an operation on a file fails. -/
inductive DiskFault where
  | notFound
  | alreadyExists
  | notDirectory
  | isDirectory
  | nameTooLong
  /-- The file is no text. -/
  | undecodable
  /-- The path holds a character that no name can have. -/
  | invalidName
  /-- No directory on the way to the path could be made. -/
  | noParent
  /-- Any other reason, in the words of the system. -/
  | other (reason : String)
  deriving DecidableEq, Repr, Inhabited

def DiskFault.message : DiskFault → String
  | notFound => "No such file or directory (os error 2)"
  | alreadyExists => "File exists (os error 17)"
  | notDirectory => "Not a directory (os error 20)"
  | isDirectory => "Is a directory (os error 21)"
  | nameTooLong => "File name too long (os error 36)"
  | undecodable => "stream did not contain valid UTF-8"
  | invalidName => "file name contained an unexpected NUL byte"
  | noParent => "failed to create whole tree"
  | other reason => reason

/-- The operations on files that a program needs. -/
class Disk (m : Type → Type) where
  workingDirectory : m (List String)
  isFile : Path → m Bool
  isDirectory : Path → m Bool
  readText : Path → m (Except DiskFault String)
  makeDirectory : Path → m (Except DiskFault Unit)
  writeText : Path → String → m (Except DiskFault Unit)

namespace Disk

variable {m : Type → Type} [Monad m] [Disk m]

/-- Make a directory and those on the way to it, as far as they are missing.
The fuel bounds the number of directories on the way. -/
def makeDirectoriesFrom : Nat → Path → m (Except DiskFault Unit)
  | 0, _ => return .error .noParent
  | fuel + 1, path => do
    if path.text = "" then return .ok ()
    else
      match ← makeDirectory path with
      | .ok () => return .ok ()
      | .error .notFound =>
        match path.parent? with
        | none => return .error .noParent
        | some parent =>
          match ← makeDirectoriesFrom fuel parent with
          | .error fault => return .error fault
          | .ok () =>
            match ← makeDirectory path with
            | .ok () => return .ok ()
            | .error fault => if ← isDirectory path then return .ok () else return .error fault
      | .error fault => if ← isDirectory path then return .ok () else return .error fault

def makeDirectories (path : Path) : m (Except DiskFault Unit) :=
  makeDirectoriesFrom (path.text.length + 1) path

end Disk

end TrackingPlan
