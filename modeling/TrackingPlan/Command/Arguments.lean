import TrackingPlan.Command.Help
import TrackingPlan.Path

/-!
# Arguments

The arguments of the command are read from left to right; the first thing that
is asked for or that is wrong decides. An option takes its value from the same
argument or from the next one.
-/

namespace TrackingPlan.Command

/-- An argument, by its form. -/
inductive Argument where
  /-- What comes after it is no option. -/
  | separator
  | long (name : String) (value : Option String)
  /-- A letter, and what follows it in the same argument. -/
  | short (letter : Char) (attached : String)
  | plain (text : String)
  deriving DecidableEq, Repr, Inhabited

/-- The name of a long option and the value after the first `=`. -/
def splitValue (chars : List Char) : String × Option String :=
  let name := chars.takeWhile (· != '=')
  (String.ofList name,
    if name.length < chars.length then some (String.ofList (chars.drop (name.length + 1)))
    else none)

def Argument.ofText (text : String) : Argument :=
  match text.toList with
  | ['-', '-'] => .separator
  | '-' :: '-' :: rest => let (name, value) := splitValue rest; .long name value
  | '-' :: letter :: rest => .short letter (String.ofList rest)
  | _ => .plain text

/-- Why arguments cannot be understood. -/
inductive UsageFault where
  | unexpected (argument : String)
  | unknownCommand (name : String)
  | missingValue (option : String)
  | invalidValue (option value : String)
  | repeated (option : String)
  deriving DecidableEq, Repr, Inhabited

def UsageFault.message : UsageFault → String
  | unexpected argument => "error: unexpected argument '" ++ argument ++ "' found"
  | unknownCommand name => "error: unrecognized subcommand '" ++ name ++ "'"
  | missingValue option => "error: a value is required for '" ++ option ++ "'"
  | invalidValue option value => "error: invalid value '" ++ value ++ "' for '" ++ option ++ "'"
  | repeated option => "error: the argument '" ++ option ++ "' cannot be used multiple times"

/-- What a generating run is asked for. What is absent may be in the configuration. -/
structure Options where
  input : Option Path
  output : Option Path
  implementation : Option Path
  isAsync : Option Bool
  config : Option Path
  isCheck : Bool
  deriving DecidableEq, Repr, Inhabited

def Options.none : Options := ⟨.none, .none, .none, .none, .none, false⟩

/-- The options that take a value. -/
inductive Setting where
  | input
  | output
  | implementation
  | isAsync
  | config
  deriving DecidableEq, Repr, Inhabited

namespace Setting

def ofLong? : String → Option Setting
  | "input" => some input
  | "output" => some output
  | "implementation" => some implementation
  | "methods-async" | "methodsAsync" => some isAsync
  | "config" => some config
  | _ => none

def ofShort? : Char → Option Setting
  | 'i' => some input
  | 'o' => some output
  | _ => none

def name : Setting → String
  | input => "--input <PLAN>"
  | output => "--output <DIR>"
  | implementation => "--implementation <MODULE>"
  | isAsync => "--methods-async <BOOL>"
  | config => "--config <FILE>"

/-- A value for the first time, if it is one. -/
def fill {α : Type} (setting : Setting) (read : String → Option α) (value : String) :
    Option α → Except UsageFault (Option α)
  | some _ => .error (.repeated setting.name)
  | none =>
    match read value with
    | some read => .ok (some read)
    | none => .error (.invalidValue setting.name value)

def readPath (value : String) : Option Path := if value = "" then none else some ⟨value⟩

def readBoolean : String → Option Bool
  | "true" => some true
  | "false" => some false
  | _ => none

/-- The options with the setting, which may be given only once. -/
def store (setting : Setting) (value : String) (options : Options) : Except UsageFault Options :=
  match setting with
  | input => do return { options with input := ← setting.fill readPath value options.input }
  | output => do return { options with output := ← setting.fill readPath value options.output }
  | implementation => do
    return { options with implementation := ← setting.fill readPath value options.implementation }
  | isAsync => do
    return { options with isAsync := ← setting.fill readBoolean value options.isAsync }
  | config => do return { options with config := ← setting.fill readPath value options.config }

end Setting

/-- What the arguments ask for. -/
inductive Request where
  /-- Without a command the program presents itself. -/
  | overview
  | help (topic : Topic)
  | version
  | generate (options : Options)
  deriving DecidableEq, Repr, Inhabited

/-- The value in the same argument as a letter, with or without `=`. -/
def attachedValue? (attached : String) : Option String :=
  match attached.toList with
  | [] => none
  | '=' :: value => some (String.ofList value)
  | _ => some attached

/-- What the argument of a command asks for next. -/
inductive Demand where
  | help
  | check
  | finish
  /-- A setting, and its value if the argument has it. -/
  | set (setting : Setting) (value : Option String)
  deriving DecidableEq, Repr, Inhabited

def Demand.ofArgument (text : String) : Except UsageFault Demand :=
  match Argument.ofText text with
  | .separator => .ok .finish
  | .long "help" none => .ok .help
  | .long "check" none => .ok .check
  | .short 'h' _ => .ok .help
  | .long name value =>
    match Setting.ofLong? name with
    | some setting => .ok (.set setting value)
    | none => .error (.unexpected text)
  | .short letter attached =>
    match Setting.ofShort? letter with
    | some setting => .ok (.set setting (attachedValue? attached))
    | none => .error (.unexpected text)
  | .plain _ => .error (.unexpected text)

/-- The options of a generating run, from those that are read already. -/
def readOptions (options : Options) : List String → Except UsageFault Request
  | [] => .ok (.generate options)
  | text :: rest =>
    match Demand.ofArgument text with
    | .error fault => .error fault
    | .ok .help => .ok (.help .transliterate)
    | .ok .check =>
      if options.isCheck then .error (.repeated "--check")
      else readOptions { options with isCheck := true } rest
    | .ok .finish =>
      match rest with
      | [] => .ok (.generate options)
      | stray :: _ => .error (.unexpected stray)
    | .ok (.set setting (some value)) => do
      readOptions (← setting.store value options) rest
    | .ok (.set setting none) =>
      match rest with
      | [] => .error (.missingValue setting.name)
      | value :: rest =>
        match Argument.ofText value with
        | .plain value => do readOptions (← setting.store value options) rest
        | _ => .error (.missingValue setting.name)

/-- Help about the command that names lead to. -/
def readHelp : List String → Except UsageFault Request
  | [] => .ok (.help .program)
  | ["transliterate"] => .ok (.help .transliterate)
  | ["help"] => .ok (.help .help)
  | "transliterate" :: name :: _ => .error (.unknownCommand name)
  | "help" :: name :: _ => .error (.unknownCommand name)
  | name :: _ => .error (.unknownCommand name)

def Request.ofArguments : List String → Except UsageFault Request
  | [] => .ok .overview
  | "transliterate" :: rest => readOptions .none rest
  | "help" :: rest => readHelp rest
  | text :: rest =>
    match Argument.ofText text with
    | .long "help" none => .ok (.help .program)
    | .short 'h' _ => .ok (.help .program)
    | .long "version" none => .ok .version
    | .short 'V' _ => .ok .version
    | .separator =>
      match rest with
      | [] => .ok .overview
      | stray :: _ => .error (.unexpected stray)
    | .plain name => .error (.unknownCommand name)
    | _ => .error (.unexpected text)

end TrackingPlan.Command
