import Depot.Files.Errno
import Depot.Text.Utf8

/-!
Failures of the depot. A failure records its cause; its wording is one function. Paths are kept as
bytes and shown as text.
-/

namespace Depot

/-- What lies under a failed operation. -/
inductive Cause where
  | errno (e : Files.Errno)
  | other (text : String)
  deriving DecidableEq, Repr

def Cause.text : Cause → String
  | .errno e => e.text
  | .other text => text

inductive SettingsFault where
  /-- The text is no document. -/
  | grammar
  /-- The document does not have the shape of settings. -/
  | shape
  /-- The settings break a rule, stated in the text. -/
  | rule (reason : String)
  /-- A path in the settings is no text, so there is no document of them. -/
  | unwritable
  deriving DecidableEq, Repr

inductive Failure where
  | settingsInvalid (path : Bytes) (fault : SettingsFault)
  | settingsDirectory (path : Bytes) (cause : Cause)
  | branchNotFound (branch : String)
  | branchInvalid (name reason : String)
  | brokenLink (link target : Bytes)
  | noRevision (target : String)
  | locationNotFound (target name : String)
  | fileNotFound (path : String)
  | emptyCommand
  | io (context : String) (cause : Cause)
  | pathInvalid (path : Bytes) (reason : String)
  | commandNotStarted (command : String) (cause : Cause)
  /-- `code` is absent when a signal ended the command. -/
  | commandFailed (command : String) (code : Option Int) (output : String)
  | internal (text : String)
  deriving DecidableEq, Repr

def SettingsFault.text : SettingsFault → String
  | .grammar => "not a TOML document"
  | .shape => "not a settings document"
  | .rule reason => reason
  | .unwritable => "path contains invalid UTF-8 characters"

def showCode : Option Int → String
  | none => "None"
  | some n => "Some(" ++ toString n ++ ")"

namespace Failure

def message : Failure → String
  | settingsInvalid _ .unwritable => "TOML serialize error: " ++ SettingsFault.unwritable.text
  | settingsInvalid path fault =>
    "Invalid configuration at " ++ Utf8.toStringLossy path ++ ": " ++ fault.text
  | settingsDirectory path cause =>
    "Failed to create config directory " ++ Utf8.toStringLossy path ++ ": " ++ cause.text
  | branchNotFound branch => "Branch not found in mirror: " ++ branch
  | branchInvalid name reason => "Invalid branch name '" ++ name ++ "': " ++ reason
  | brokenLink link target =>
    "Symlink " ++ Utf8.toStringLossy link ++ " points outside the archived tree to " ++
      Utf8.toStringLossy target ++ ", which does not exist"
  | noRevision target => "No revision with content found for package " ++ target
  | locationNotFound target name => "Package " ++ target ++ " has no location named " ++ name
  | fileNotFound path => "File not found in archive: " ++ path
  | emptyCommand => "No command given"
  | io context _ => "IO error: " ++ context
  | pathInvalid path reason => "Invalid path: " ++ Utf8.toStringLossy path ++ ": " ++ reason
  | commandNotStarted command _ => "Command failed: " ++ command
  | commandFailed command code output =>
    "Command execution error: " ++ command ++ ", exit code: " ++ showCode code ++ ", output: " ++
      output
  | internal text => "Internal error: " ++ text

/-- What a user can do about a failure. -/
def hint? : Failure → Option String
  | branchNotFound _ => some "List available branches with: pkgstore branches"
  | brokenLink .. => some "Fix or remove the dangling symlink in the repository and push again"
  | noRevision _ => some "Push a main branch for the package, e.g. <package>/main"
  | locationNotFound .. => some "List the package's locations with: pkgstore locations <package>"
  | settingsInvalid _ .unwritable => none
  | settingsInvalid .. => some "Inspect the configuration with: pkgstore config show"
  | _ => none

/-- The failure says only that a branch does not exist. -/
def isBranchNotFound : Failure → Bool
  | branchNotFound _ => true
  | _ => false

/-- An input/output failure with a reason of the file system. -/
def ofErrno (context : String) (e : Files.Errno) : Failure := .io context (.errno e)

end Failure

end Depot
