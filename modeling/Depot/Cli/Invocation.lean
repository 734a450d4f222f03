import Depot.Cli.Grammar
import Depot.Settings.Rules

/-! What a command line of the depot asks for. -/

namespace Depot.Cli

inductive ReportFormat where
  | table | json
  deriving DecidableEq, Repr

inductive SettingsAction where
  | showSettings | showPath
  | create (isForced : Bool)
  deriving DecidableEq, Repr

inductive Request where
  | checkout (branch path : String) (format : ReportFormat)
  | resolve (target : String) (location : Option String) (format : ReportFormat)
  | locations (target : String) (format : ReportFormat)
  | cat (target file : String) (location : Option String)
  | exec (target : String) (location : Option String) (words : List String)
  | branches
  | settings (action : Option SettingsAction)
  deriving DecidableEq, Repr

structure Invocation where
  request : Request
  verbosity : Nat
  /-- The path of the settings file. -/
  settings : Option String
  logFormat : Option LogFormat
  deriving DecidableEq, Repr

def programName : String := "pkgstore"

def programVersion : String := "0.1.0"

def commonOptions : List OptionRule :=
  [⟨"verbose", some 'v', .count⟩, ⟨"config", some 'c', .value .notEmpty⟩,
    ⟨"log-format", none, .value (.oneOf ["text", "json"])⟩, ⟨"help", some 'h', .help⟩,
    ⟨"version", some 'V', .version⟩]

def formatOption : OptionRule := ⟨"format", some 'f', .value (.oneOf ["table", "json"])⟩

def locationOption : OptionRule := ⟨"location", some 'l', .value .any⟩

def leaf (name : String) (options : List OptionRule) (operands : List Operand) : Grammar :=
  .command name (options ++ commonOptions) operands false []

def grammar : Grammar :=
  .command programName commonOptions [] true
    [leaf "checkout" [⟨"path", some 'p', .value .any⟩, formatOption] [⟨"branch", false⟩],
      leaf "resolve" [locationOption, formatOption] [⟨"target", false⟩],
      leaf "locations" [formatOption] [⟨"target", false⟩],
      leaf "cat" [locationOption] [⟨"target", false⟩, ⟨"file", false⟩],
      leaf "exec" [locationOption] [⟨"target", false⟩, ⟨"command", true⟩],
      leaf "branches" [] [],
      .command "config" commonOptions [] false
        [leaf "show" [] [], leaf "path" [] [], leaf "init" [⟨"force", some 'f', .flag⟩] []]]

namespace Level

def text (lv : Level) (name : String) : String := (lv.value? name).getD ""

def format (lv : Level) : ReportFormat :=
  if lv.value? "format" = some "json" then .json else .table

/-- What the command below the program asks for. -/
def request (lv : Level) (below : Option Level) : Option Request :=
  match lv.path.getLast? with
  | some "checkout" =>
    some (.checkout (lv.text "branch") ((lv.value? "path").getD ".") lv.format)
  | some "resolve" => some (.resolve (lv.text "target") (lv.value? "location") lv.format)
  | some "locations" => some (.locations (lv.text "target") lv.format)
  | some "cat" => some (.cat (lv.text "target") (lv.text "file") (lv.value? "location"))
  | some "exec" =>
    some (.exec (lv.text "target") (lv.value? "location") ((assoc? "command" lv.values).getD []))
  | some "branches" => some .branches
  | some "config" =>
    some (.settings (below.bind fun b =>
      match b.path.getLast? with
      | some "show" => some .showSettings
      | some "path" => some .showPath
      | some "init" => some (.create (assoc? "force" b.counts).isSome)
      | _ => none))
  | _ => none

end Level

namespace Invocation

/-- The value of an option that every command takes. That of the innermost command counts, and the
environment only where no command was given one. -/
def common? (levels : List Level) (name : String) : Option String :=
  (levels.reverse.findSome? fun lv => lv.value? name) <|>
    levels.findSome? fun lv => assoc? name lv.ambient

def ofLevels (levels : List Level) : Except UsageError Invocation :=
  match (levels[1]?).bind fun lv => lv.request levels[2]? with
  | none => .error .missingCommand
  | some request =>
    .ok {
      request := request
      verbosity := (levels.reverse.findSome? fun lv => assoc? "verbose" lv.counts).getD 0
      settings := common? levels "config"
      logFormat := (common? levels "log-format").map LogFormat.ofSetting }

/-- Reads a command line, given the path of the settings file that the environment names. -/
def parse (settings : Option String) (words : List String) : Except UsageError Invocation := do
  let ambient := (settings.map fun path => ("config", path)).toList
  ofLevels (← Level.read ambient words grammar { path := [programName] })

end Invocation

end Depot.Cli
