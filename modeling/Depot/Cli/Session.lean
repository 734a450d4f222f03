import Depot.Archive.Contents
import Depot.Checkout.Machine
import Depot.Cli.Report
import Depot.Host.Run
import Depot.Settings.File

/-!
Carrying out command lines. Every run loads the settings first, also one that would replace them.
What it finds goes to the output; its progress, its failure and a hint go to the error stream.
-/

namespace Depot.Cli

/-- What a run has written so far. -/
structure Screen where
  out : Bytes := []
  err : Bytes := []
  deriving DecidableEq, Repr

/-- The outcome of a command in a world. -/
abbrev Shown := World × Screen × Except Failure Unit

namespace Screen

def print (s : Screen) (text : String) : Screen := { s with out := s.out ++ Utf8.ofString text }

def status (s : Screen) (mark text : String) : Screen :=
  { s with err := s.err ++ Utf8.ofString (mark ++ " " ++ text ++ "\n") }

end Screen

/-- The revision found for a package, or in one of its locations. -/
def search (s : Settings) (catalog : Catalog) (id : TargetId) (location : Option String)
    (w : World) : World × Except Failure Revision :=
  let source := Builder.source s.toSite
  let found : (World × Builder) × Except Failure (Option Revision) :=
    match location with
    | none => catalog.search id source (w, {})
    | some name =>
      match catalog.location? id name with
      | none => ((w, {}), .error (.locationNotFound id.text name))
      | some l => l.search source (w, {})
  match found with
  | ((w, _), .error f) => (w, .error f)
  | ((w, _), .ok none) => (w, .error (.noRevision id.text))
  | ((w, _), .ok (some r)) => (w, .ok r)

/-- The declared packages and the id of a package. -/
def target (s : Settings) (text : String) : Except Failure (Catalog × TargetId) := do
  return (← Catalog.ofPackages s.packages, ← TargetId.parse text)

def mainArchive (s : Settings) (text : String) (location : Option String) (w : World) :
    World × Except Failure Archive :=
  match target s text with
  | .error f => (w, .error f)
  | .ok (catalog, id) =>
    match search s catalog id location w with
    | (w, .error f) => (w, .error f)
    | (w, .ok r) =>
      match r.archive with
      | none => (w, .error (.noRevision id.text))
      | some h => (w, .ok (s.archive h))

def checkOut (s : Settings) (branch path : String) (format : ReportFormat) (w : World) : Shown :=
  let screen := ({} : Screen).status "..." ("Checking out " ++ branch ++ ":" ++ path ++ "...")
  match Builder.checkout s.toSite branch path w {} with
  | (w, _, .error f) => (w, screen.status "[FAIL]" "Checkout failed", .error f)
  | (w, _, .ok o) =>
    let screen := match o.archive with
      | some h => screen.status "[OK]" ("Archive " ++ h.short ++ " ready")
      | none => screen.status "[WARN]" ("No content at " ++ path ++ " on " ++ branch ++
          " - the path does not exist at this commit")
    (w, screen.print (checkoutReport s.toSite branch path o format), .ok ())

def resolveTarget (s : Settings) (text : String) (location : Option String) (format : ReportFormat)
    (w : World) : Shown :=
  match target s text with
  | .error f => (w, {}, .error f)
  | .ok (catalog, id) =>
    let screen := ({} : Screen).status "..." ("Resolving " ++ id.text ++ "...")
    match search s catalog id location w with
    | (w, .error f) => (w, screen.status "[FAIL]" "No revision found", .error f)
    | (w, .ok r) =>
      (w, (screen.status "[OK]" ("Resolved " ++ id.text)).print (revisionReport s.toSite r format),
        .ok ())

def listLocations (s : Settings) (text : String) (format : ReportFormat) (w : World) : Shown :=
  match target s text with
  | .error f => (w, {}, .error f)
  | .ok (catalog, id) =>
    (w, ({} : Screen).print (locationsReport (catalog.locations id) format), .ok ())

def printFile (s : Settings) (text file : String) (location : Option String) (w : World) : Shown :=
  match mainArchive s text location w with
  | (w, .error f) => (w, {}, .error f)
  | (w, .ok a) =>
    match a.read w.disk file with
    | .error f => (w, {}, .error f)
    | .ok none => (w, {}, .error (.fileNotFound file))
    | .ok (some data) => (w, { out := data }, .ok ())

def execute [Host] (env : Environment) (s : Settings) (text : String) (location : Option String)
    (words : List String) (w : World) : Shown :=
  match mainArchive s text location w with
  | (w, .error f) => (w, {}, .error f)
  | (w, .ok a) =>
    match a.exec env w.disk words with
    | (d, .error f) => ({ w with disk := d }, {}, .error f)
    | (d, .ok out) => ({ w with disk := d }, ({} : Screen).print out, .ok ())

def showBranches (s : Settings) (w : World) : Shown :=
  match History.prepare s.repository w with
  | (w, .error f) => (w, {}, .error f)
  | (w, .ok _) =>
    match History.branches s.repository w with
    | (w, .error f) => (w, {}, .error f)
    | (w, .ok []) =>
      (w, ({} : Screen).status "[INFO]" ("No branches in " ++ Utf8.toStringLossy s.repository), .ok ())
    | (w, .ok names) => (w, ({} : Screen).print (String.join (names.map (· ++ "\n"))), .ok ())

/-- Shows settings, or the path of their file, or makes the file with the default settings. A file
that exists is kept unless `isForced` holds. -/
def manageSettings (env : Environment) (s : Settings) (path : Bytes) (w : World) :
    Option SettingsAction → Shown
  | none | some .showSettings =>
    match s.text? with
    | none => (w, {}, .error (.settingsInvalid path .unwritable))
    | some text => (w, ({} : Screen).print (String.ofList text ++ "\n"), .ok ())
  | some .showPath => (w, ({} : Screen).print (Utf8.toStringLossy path ++ "\n"), .ok ())
  | some (.create isForced) =>
    let shownPath := Utf8.toStringLossy path
    if w.disk.doesExist path && !isForced then
      (w, ({} : Screen).status "[WARN]"
        ("Config already exists at " ++ shownPath ++ " - Use --force to overwrite"), .ok ())
    else
      match env.defaultSettings.save w.disk path with
      | (d, .error f) => ({ w with disk := d }, {}, .error f)
      | (d, .ok _) =>
        ({ w with disk := d },
          ({} : Screen).status "[OK]" ("Configuration initialized (" ++ shownPath ++ ")"), .ok ())

/-- Everything but the settings and the list of branches works in the cache directories. -/
def Request.needsCache : Request → Bool
  | .branches | .settings _ => false
  | _ => true

def Request.run [Host] (env : Environment) (s : Settings) (path : Bytes) (w : World) : Request → Shown
  | .checkout branch subtree format => checkOut s branch subtree format w
  | .resolve text location format => resolveTarget s text location format w
  | .locations text format => listLocations s text format w
  | .cat text file location => printFile s text file location w
  | .exec text location words => execute env s text location words w
  | .branches => showBranches s w
  | .settings action => manageSettings env s path w action

namespace Invocation

def settingsPath (i : Invocation) (env : Environment) : Bytes :=
  (i.settings.map Utf8.ofString).getD env.settingsPath

/-- Loads the settings, makes the directories that the request needs, and carries it out. -/
def outcome [Host] (i : Invocation) (env : Environment) (w : World) : Shown :=
  let path := i.settingsPath env
  match Settings.load w.disk env.defaultSettings path with
  | .error f => (w, {}, .error f)
  | .ok s =>
    if i.request.needsCache then
      match Workspace.ensure w.disk s.dirs with
      | (d, .error f) => ({ w with disk := d }, {}, .error f)
      | (d, .ok _) => i.request.run env s path { w with disk := d }
    else i.request.run env s path w

/-- A whole run: its failure is the last thing on the error stream. -/
def run [Host] (i : Invocation) (env : Environment) (w : World) : World × Finished :=
  match i.outcome env w with
  | (w, screen, .ok _) => (w, ⟨screen.out, screen.err, some 0⟩)
  | (w, screen, .error f) =>
    let screen := screen.status "Error:" f.message
    let screen := match f.hint? with
      | some hint => screen.status "Hint:" hint
      | none => screen
    (w, ⟨screen.out, screen.err, some 1⟩)

end Invocation

def settingsVariable : String := "PKGSTORE_CONFIG"

namespace UsageError

def text : UsageError → String
  | help path => "Usage: " ++ spaced path ++ " [OPTIONS]\n"
  | version path => "-".intercalate path ++ " " ++ programVersion ++ "\n"
  | helpForNothing => "Usage: " ++ programName ++ " [OPTIONS] <COMMAND>\n"
  | missingCommand => "error: a command is required\n"
  | unknownCommand => "error: unrecognized command\n"
  | unknownArgument => "error: unexpected argument\n"
  | invalidValue => "error: invalid value\n"
  | tooManyValues => "error: unexpected value\n"
  | repeated => "error: an argument was given more than once\n"
  | missingOperand => "error: a required argument was not given\n"

end UsageError

/-- Runs a command line. The environment may name the settings file. -/
def run [Host] (env : Environment) (w : World) (words : List String) : World × Finished :=
  match Invocation.parse ((assoc? settingsVariable env).map Utf8.toStringLossy) words with
  | .ok i => i.run env w
  | .error e =>
    let text := Utf8.ofString e.text
    (w, if e.code = 0 then ⟨text, [], some 0⟩ else ⟨[], text, some e.code⟩)

end Depot.Cli
