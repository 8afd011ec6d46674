import TrackingPlan.Text.Lines

/-!
# Paths

A path is a text of names with slashes between them. It is taken apart without
looking at any file: empty names and single dots count for nothing, except that
a dot in front of all names is kept.
-/

namespace TrackingPlan

structure Path where
  text : String
  deriving DecidableEq, Repr, Inhabited

namespace Path

def isAbsolute (path : Path) : Bool := path.text.toList.head? == some '/'

/-- The path from this one on; an absolute path stands for itself. -/
def join (base : Path) (path : Path) : Path :=
  if path.isAbsolute then path
  else
    match base.text.toList.getLast? with
    | none => path
    | some '/' => ⟨base.text ++ path.text⟩
    | some _ => ⟨base.text ++ "/" ++ path.text⟩

/-- The slash or the dot in front of all names, and the names with their slashes. -/
def splitFront : List Char → List Char × List Char
  | '/' :: rest => (['/'], rest)
  | ['.'] => (['.'], [])
  | '.' :: '/' :: rest => (['.'], '/' :: rest)
  | chars => ([], chars)

def isIdle (segment : List Char) : Bool := segment == [] || segment == ['.']

/-- The segments up to the last one that counts. -/
def dropIdleEnd (segments : List (List Char)) : List (List Char) :=
  (segments.reverse.dropWhile isIdle).reverse

def joinSegments (segments : List (List Char)) : List Char :=
  ['/'].intercalate segments

/-- The front of a path and its segments up to the last one that counts. -/
def frontAndSegments (path : Path) : List Char × List (List Char) :=
  let (front, rest) := splitFront path.text.toList
  (front, dropIdleEnd (Text.splitOn '/' rest))

/-- The path without its last name; the root and the empty path have none. -/
def parent? (path : Path) : Option Path :=
  let (front, segments) := path.frontAndSegments
  match segments with
  | [] => if front == ['.'] then some ⟨""⟩ else none
  | _ => some ⟨String.ofList (front ++ joinSegments (dropIdleEnd segments.dropLast))⟩

/-- The last name, unless it leads upwards. -/
def fileName? (path : Path) : Option (List Char) :=
  match path.frontAndSegments.2.getLast? with
  | some ['.', '.'] => none
  | name => name

/-- The parts of a name before and after its last dot; a dot in front of a name
is a part of it. -/
def splitExtension (name : List Char) : List Char × Option (List Char) :=
  let after := name.reverse.takeWhile (· != '.')
  match name.reverse.drop after.length with
  | [] => (name, none)
  | [_] => (name, none)
  | _ :: before => (before.reverse, some after.reverse)

def extension? (path : Path) : Option String :=
  path.fileName?.bind fun name => (splitExtension name).2.map String.ofList

/-- The path up to its last name, of which the part before the last dot is kept. -/
def cutAtStem (path : Path) : Path :=
  match path.fileName? with
  | none => path
  | some name =>
    let (front, segments) := path.frontAndSegments
    ⟨String.ofList
      (front ++ joinSegments (segments.dropLast ++ [(splitExtension name).1]))⟩

/-- The path without the extension of its last name. Where only dots are left
of the name, they may lead upwards. -/
def dropExtension (path : Path) : Path :=
  let extension := path.extension?.getD ""
  cutAtStem ⟨String.ofList (path.text.toList.take (path.text.length - extension.length))⟩

/-- The names of a path that count, including those that lead upwards. -/
def names (path : Path) : List String :=
  (Text.segments path.text).filter fun name => name != "" && name != "."

/-- Follow names from a directory; `..` leads upwards, at most to the root. -/
def follow (directory : List String) (names : List String) : List String :=
  names.foldl (fun location name => if name = ".." then location.dropLast else location ++ [name])
    directory

/-- Where a path leads from the working directory, by names alone. The empty
path leads nowhere. -/
def resolve? (workingDirectory : List String) (path : Path) : Option (List String) :=
  if path.text = "" then none
  else some (follow (if path.isAbsolute then [] else workingDirectory) path.names)

/-- The shortest way from one location to another: up to what they share, and
down from there. -/
def relative : List String → List String → List String
  | a :: source, b :: target =>
    if a = b then relative source target else (a :: source).map (fun _ => "..") ++ b :: target
  | source, target => source.map (fun _ => "..") ++ target

end Path

end TrackingPlan
