/-!
# Values of a configuration text

A table remembers how it came to be, because that decides what may still be
added to it. Numbers and dates are not told apart: no setting takes one.
-/

namespace TrackingPlan.Toml

inductive TableKind where
  /-- A table with a header of its own, or the table of the whole text. -/
  | explicit
  /-- A table that only headers of other tables go through. -/
  | implicit
  /-- A table that dotted keys go through. -/
  | dotted
  deriving DecidableEq, Repr, Inhabited

inductive Value where
  | string (text : String)
  | boolean (value : Bool)
  /-- A number, a date or a time. -/
  | other
  | array (items : List Value)
  /-- A table in braces; `dotted` if dotted keys inside of one go through it. -/
  | inlineTable (dotted : Bool) (entries : List (String × Value))
  | table (kind : TableKind) (entries : List (String × Value))
  /-- The tables of an array that is written with headers. -/
  | tables (tables : List (List (String × Value)))
  deriving Inhabited

namespace Value

def entries? : Value → Option (List (String × Value))
  | inlineTable _ entries => some entries
  | table _ entries => some entries
  | _ => none

/-- The value at a key; values that are no table have none. -/
def get? (value : Value) (key : String) : Option Value :=
  value.entries?.bind (·.lookup key)

def text? : Value → Option String
  | string text => some text
  | _ => none

end Value

/-- The entries with the value at the key replaced, or a new entry at the end. -/
def put (key : String) (value : Value) : List (String × Value) → List (String × Value)
  | [] => [(key, value)]
  | (name, old) :: rest =>
    if name = key then (name, value) :: rest else (name, old) :: put key value rest

/-- Add an entry to an inline table, through the tables that the dotted part of
its key names. -/
def insertInline (value : Value) (key : String) :
    List String → List (String × Value) → Except String (List (String × Value))
  | [], entries =>
    if (entries.lookup key).isSome then .error ("duplicate key `" ++ key ++ "`")
    else .ok (entries ++ [(key, value)])
  | first :: path, entries =>
    match entries.lookup first with
    | none => do
      return put first (.inlineTable true (← insertInline value key path [])) entries
    | some (.inlineTable true inner) => do
      return put first (.inlineTable true (← insertInline value key path inner)) entries
    | some _ => .error ("duplicate key `" ++ first ++ "`")

/-- A table that is being added to. -/
structure Level where
  kind : TableKind
  entries : List (String × Value)

/-- Edit the table at a path; tables that are missing come to be. Dotted keys
cannot go through a table with a header of its own, and an array of tables
stands for its last one. -/
def editAt (isDotted : Bool) (edit : Level → Except String Level) :
    List String → Level → Except String Level
  | [], level => edit level
  | key :: path, level =>
    match level.entries.lookup key with
    | none => do
      let inner ← editAt isDotted edit path ⟨if isDotted then .dotted else .implicit, []⟩
      return { level with entries := put key (.table inner.kind inner.entries) level.entries }
    | some (.table kind entries) =>
      if isDotted && kind == .explicit then .error ("duplicate key `" ++ key ++ "`")
      else do
        let inner ← editAt isDotted edit path ⟨kind, entries⟩
        return { level with entries := put key (.table inner.kind inner.entries) level.entries }
    | some (.tables tables) =>
      match tables.getLast? with
      | none => .error ("duplicate key `" ++ key ++ "`")
      | some last => do
        let inner ← editAt isDotted edit path ⟨.explicit, last⟩
        return { level with
          entries := put key (.tables (tables.dropLast ++ [inner.entries])) level.entries }
    | some _ => .error ("dotted key `" ++ key ++ "` attempted to extend non-table type")

/-- Add a setting to the table of a header. A table that dotted keys made takes
settings by dotted keys only, and those take no other table. -/
def addSetting (header path : List String) (key : String) (value : Value) (root : Level) :
    Except String Level :=
  editAt false (editAt true (fun level =>
    if (level.kind == .dotted) == path.isEmpty || (level.entries.lookup key).isSome then
      .error ("duplicate key `" ++ key ++ "`")
    else .ok { level with entries := level.entries ++ [(key, value)] }) path) header root

/-- Open the table of a header. Only a table that other headers went through may
be there already; its place in the table around it is the one of its own header. -/
def openTable (path : List String) (key : String) (root : Level) : Except String Level :=
  editAt false (fun level =>
    match level.entries.lookup key with
    | none => .ok { level with entries := level.entries ++ [(key, .table .explicit [])] }
    | some (.table .implicit entries) =>
      .ok { level with
        entries := level.entries.filter (·.1 != key) ++ [(key, .table .explicit entries)] }
    | some _ => .error ("duplicate key `" ++ key ++ "`")) path root

/-- Open one table more of an array of tables. -/
def openArrayTable (path : List String) (key : String) (root : Level) : Except String Level :=
  editAt false (fun level =>
    match level.entries.lookup key with
    | none => .ok { level with entries := level.entries ++ [(key, .tables [[]])] }
    | some (.tables tables) =>
      .ok { level with entries := put key (.tables (tables ++ [[]])) level.entries }
    | some _ => .error ("duplicate key `" ++ key ++ "`")) path root

end TrackingPlan.Toml
