import TrackingPlan.Command.Run

/-!
# The program

Runs the command on the files of the system.
-/

namespace TrackingPlan

/-- The number and the words of a system error. -/
def systemError : IO.Error → Option (UInt32 × String)
  | .alreadyExists _ code details | .otherError code details | .resourceBusy code details
  | .resourceVanished code details | .unsupportedOperation code details
  | .hardwareFault code details | .unsatisfiedConstraints code details
  | .illegalOperation code details | .protocolError code details | .timeExpired code details
  | .interrupted _ code details | .noFileOrDirectory _ code details
  | .invalidArgument _ code details | .permissionDenied _ code details
  | .resourceExhausted _ code details | .inappropriateType _ code details
  | .noSuchThing _ code details => some (code, details)
  | _ => none

/-- The number of a system error; some operations report its negation. -/
def errorNumber (code : UInt32) : UInt32 := if 0x80000000 ≤ code then 0 - code else code

/-- The reason why the system refused something. -/
def refusal (error : IO.Error) : DiskFault :=
  match systemError error with
  | some (code, details) =>
    match errorNumber code with
    | 2 => .notFound
    | 17 => .alreadyExists
    | 20 => .notDirectory
    | 21 => .isDirectory
    | 36 => .nameTooLong
    | number => .other (details ++ " (os error " ++ toString number ++ ")")
  | none => .other (toString error)

/-- Do something with the files of the system, unless the path has no file name
of the system. -/
def onSystem {α : Type} (path : Path) (action : IO α) : IO (Except DiskFault α) := do
  if path.text.toList.any (·.toNat == 0) then return .error .invalidName
  try return .ok (← action)
  catch error => return .error (refusal error)

/-- Read the first byte of a file. -/
def probe (path : Path) : IO (Except DiskFault Unit) :=
  onSystem path do
    let handle ← IO.FS.Handle.mk path.text .read
    discard (handle.read 1)

instance : Disk IO where
  workingDirectory := return (Path.mk (toString (← IO.currentDir))).names
  isFile path := return (← probe path) matches .ok ()
  isDirectory path := return (← probe path) matches .error .isDirectory
  readText path := do
    match ← onSystem path (IO.FS.readBinFile path.text) with
    | .ok bytes =>
      match String.fromUTF8? bytes with
      | some text => return .ok text
      | none => return .error .undecodable
    | .error fault => return .error fault
  makeDirectory path := onSystem path (IO.FS.createDir path.text)
  writeText path text := onSystem path (IO.FS.writeFile path.text text)

end TrackingPlan

def main (arguments : List String) : IO UInt32 := do
  let output ← IO.getStdout
  let outcome ← TrackingPlan.Command.run (← output.isTty) arguments
  output.putStr outcome.printed
  output.flush
  (← IO.getStderr).putStr outcome.problem
  return outcome.code.toUInt32
