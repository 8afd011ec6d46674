import TrackingPlan.Text.Lines

/-!
# Help

What the command prints about itself.
-/

namespace TrackingPlan.Command

/-- What there is help about. -/
inductive Topic where
  | program
  | transliterate
  | help
  deriving DecidableEq, Repr, Inhabited

def versionText : String := "adx 0.4.0\n"

def programHelp : List String := [
  "adx generates typed tracking functions from a tracking plan 📈",
  "",
  "Usage: adx [COMMAND]",
  "",
  "Commands:",
  "  transliterate  🔤 Transliterate a tracking plan into TypeScript modules",
  "  help           Print this message or the help of the given subcommand(s)",
  "",
  "Options:",
  "  -h, --help     Print help",
  "  -V, --version  Print version"]

def transliterateHelp : List String := [
  "🔤 Transliterate a tracking plan into TypeScript modules",
  "",
  "Usage: adx transliterate [OPTIONS]",
  "",
  "Options:",
  "  -i, --input <PLAN>             Tracking plan YAML file",
  "  -o, --output <DIR>             Directory the generated modules are written to",
  "      --implementation <MODULE>  Module whose default export receives every tracked event. " ++
    "Without it, events are logged to the console",
  "      --methods-async <BOOL>     Generate async tracking functions that await the " ++
    "implementation [default: true] [possible values: true, false]",
  "      --config <FILE>            Project config file. Defaults to ./adx.toml when present",
  "      --check                    Don't write anything; fail if the generated files are " ++
    "missing or out of date",
  "  -h, --help                     Print help"]

def helpHelp : List String := [
  "Print this message or the help of the given subcommand(s)",
  "",
  "Usage: adx help [COMMAND]...",
  "",
  "Arguments:",
  "  [COMMAND]...  Print help for the subcommand(s)"]

def Topic.text : Topic → String
  | program => String.join (programHelp.map (· ++ "\n"))
  | transliterate => String.join (transliterateHelp.map (· ++ "\n"))
  | help => String.join (helpHelp.map (· ++ "\n"))

end TrackingPlan.Command
