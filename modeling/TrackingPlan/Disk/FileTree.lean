import TrackingPlan.Disk

/-!
# Trees of files

A disk without links, as a value: a tree of directories and files, and the
location of the working directory. Unlike the reading of a path by names alone,
every name on the way has to be there, also those that `..` leaves again. A change
fails only because of what is in the tree, and then leaves it as it is.
-/

namespace TrackingPlan

inductive Contents where
  | text (text : String)
  /-- The bytes of a file that is no text. -/
  | binary (bytes : List UInt8)
  deriving DecidableEq, Repr, Inhabited

/-- What a file with these bytes holds. -/
def Contents.ofBytes (bytes : List UInt8) : Contents :=
  match String.fromUTF8? ⟨bytes.toArray⟩ with
  | some decoded => .text decoded
  | none => .binary bytes

inductive Entry where
  | file (contents : Contents)
  | directory (entries : List (String × Entry))
  deriving Inhabited

namespace Entry

/-- Directories within each other, the last one empty. -/
def nested : List String → Entry
  | [] => directory []
  | name :: rest => directory [(name, nested rest)]

mutual

/-- The paths of everything below this entry, with the contents of files. -/
def listing (path : String) : Entry → List (String × Option Contents)
  | file contents => [(path, some contents)]
  | directory entries => (path ++ "/", none) :: listingAll (path ++ "/") entries

def listingAll (path : String) : List (String × Entry) → List (String × Option Contents)
  | [] => []
  | (name, entry) :: rest => entry.listing (path ++ name) ++ listingAll path rest

end

/-- The entry at a location below this one. -/
def get? : Entry → List String → Option Entry
  | entry, [] => some entry
  | file _, _ :: _ => none
  | directory entries, name :: rest => (entries.lookup name).bind (·.get? rest)

/-- The entry with another one at a location below it. Nothing changes unless
the directories on the way are there. -/
def put (new : Entry) : List String → Entry → Entry
  | [], _ => new
  | _ :: _, file contents => file contents
  | [name], directory entries =>
    if (entries.lookup name).isSome then
      directory (entries.map fun entry => if entry.1 = name then (name, new) else entry)
    else directory (entries ++ [(name, new)])
  | name :: next :: rest, directory entries =>
    directory (entries.map fun entry =>
      if entry.1 = name then (name, put new (next :: rest) entry.2) else entry)

/-- The entry without the one at a location below it. -/
def remove : List String → Entry → Entry
  | [], entry => entry
  | _ :: _, file contents => file contents
  | [name], directory entries => directory (entries.filter (·.1 != name))
  | name :: next :: rest, directory entries =>
    directory (entries.map fun entry =>
      if entry.1 = name then (name, remove (next :: rest) entry.2) else entry)

end Entry

structure FileTree where
  root : Entry
  workingDirectory : List String
  deriving Inhabited

namespace FileTree

/-- A tree without files, in which one directory leads to the working directory. -/
def empty (workingDirectory : List String) : FileTree :=
  ⟨.nested workingDirectory, workingDirectory⟩

/-- The paths of everything below the working directory, with the contents of files. -/
def listing (tree : FileTree) : List (String × Option Contents) :=
  match tree.root.get? tree.workingDirectory with
  | some (.directory entries) => Entry.listingAll "" entries
  | _ => []

def get? (tree : FileTree) (location : List String) : Option Entry := tree.root.get? location

/-- The longest name of a file, in bytes. -/
def nameLimit : Nat := 255

/-- The longest path, in bytes. -/
def pathLimit : Nat := 4095

/-- Follow names through the directories of the tree. The last name need not be
there. -/
def walk (tree : FileTree) : List String → List String → Except DiskFault (List String)
  | location, [] => .ok location
  | location, name :: rest =>
    match tree.get? location with
    | none => .error .notFound
    | some (.file _) => .error .notDirectory
    | some (.directory _) =>
      if name = "." then tree.walk location rest
      else if name = ".." then tree.walk location.dropLast rest
      else if nameLimit < name.utf8ByteSize then .error .nameTooLong
      else tree.walk (location ++ [name]) rest

/-- Where a path leads. A slash at the end asks for a directory. -/
def locate (tree : FileTree) (path : Path) : Except DiskFault (List String) :=
  if path.text.toList.any (·.toNat == 0) then .error .invalidName
  else if path.text = "" then .error .notFound
  else if pathLimit < path.text.utf8ByteSize then .error .nameTooLong
  else
    let names := (Text.segments path.text).filter (· != "")
    let names := if path.text.toList.getLast? == some '/' then names ++ ["."] else names
    tree.walk (if path.isAbsolute then [] else tree.workingDirectory) names

def entry? (tree : FileTree) (path : Path) : Option Entry :=
  match tree.locate path with
  | .ok location => tree.get? location
  | .error _ => none

def isFile (tree : FileTree) (path : Path) : Bool :=
  match tree.entry? path with
  | some (.file _) => true
  | _ => false

def isDirectory (tree : FileTree) (path : Path) : Bool :=
  match tree.entry? path with
  | some (.directory _) => true
  | _ => false

def readText (tree : FileTree) (path : Path) : Except DiskFault String := do
  match tree.get? (← tree.locate path) with
  | some (.file (.text text)) => .ok text
  | some (.file (.binary _)) => .error .undecodable
  | some (.directory _) => .error .isDirectory
  | none => .error .notFound

/-- The tree with an entry at a location. -/
def put (tree : FileTree) (location : List String) (entry : Entry) : FileTree :=
  { tree with root := Entry.put entry location tree.root }

/-- The path without the slashes at its end, which a new directory may have. -/
def trimSlashes (path : Path) : Path :=
  let trimmed := (path.text.toList.reverse.dropWhile (· == '/')).reverse
  if trimmed.isEmpty then path else ⟨String.ofList trimmed⟩

def makeDirectory (tree : FileTree) (path : Path) : Except DiskFault FileTree := do
  let location ← tree.locate (trimSlashes path)
  match tree.get? location with
  | some _ => .error .alreadyExists
  | none => .ok (tree.put location (.directory []))

def write (tree : FileTree) (path : Path) (contents : Contents) : Except DiskFault FileTree := do
  let location ← tree.locate path
  match tree.get? location with
  | some (.directory _) => .error .isDirectory
  | _ => .ok (tree.put location (.file contents))

def removeFile (tree : FileTree) (path : Path) : Except DiskFault FileTree := do
  let location ← tree.locate path
  match tree.get? location with
  | none => .error .notFound
  | some (.directory _) => .error .isDirectory
  | some (.file _) => .ok { tree with root := Entry.remove location tree.root }

/-- Change the tree, or leave it where the change fails. -/
def attempt (change : FileTree → Except DiskFault FileTree) :
    StateM FileTree (Except DiskFault Unit) := do
  match change (← get) with
  | .ok tree =>
    set tree
    return .ok ()
  | .error fault => return .error fault

instance : Disk (StateM FileTree) where
  workingDirectory := return (← get).workingDirectory
  isFile path := return (← get).isFile path
  isDirectory path := return (← get).isDirectory path
  readText path := return (← get).readText path
  makeDirectory path := attempt (·.makeDirectory path)
  writeText path text := attempt (·.write path (.text text))

end FileTree

end TrackingPlan
