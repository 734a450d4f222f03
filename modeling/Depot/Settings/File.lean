import Depot.Files.Disk
import Depot.Settings.Document
import Depot.Settings.Environment

/-! The settings file: loading and saving. -/

namespace Depot.Settings

open Files

/-- Reads settings from an existing file and checks them. -/
def ofFile (d : Disk) (default : Settings) (path : Bytes) : Except Failure Settings := do
  let reading (e : Errno) := Failure.ofErrno ("reading config from " ++ Utf8.toStringLossy path) e
  match d.read path with
  | .error e => throw (reading e)
  | .ok bytes =>
    match Utf8.decode? bytes with
    | none => throw (reading .badText)
    | some cs =>
      match Toml.Document.parse? cs with
      | none => throw (.settingsInvalid path .grammar)
      | some es =>
        match ofEntries? default es with
        | none => throw (.settingsInvalid path .shape)
        | some settings =>
          match settings.validate with
          | .error reason => throw (.settingsInvalid path (.rule reason))
          | .ok _ => return settings

/-- The settings of a file, or the defaults if there is none. -/
def load (d : Disk) (default : Settings) (path : Bytes) : Except Failure Settings :=
  if d.doesExist path then ofFile d default path else .ok default

/-- Writes settings to a file. Its directory is made first, even if the settings have no document. -/
def save (s : Settings) (d : Disk) (path : Bytes) : Disk × Except Failure Unit :=
  let prepared : Except Failure Disk := match Path.parent? path with
    | none => .ok d
    | some parent => (d.makeDirs parent).mapError fun e => .settingsDirectory parent (.errno e)
  match prepared with
  | .error f => (d, .error f)
  | .ok d =>
    match s.text? with
    | none => (d, .error (.settingsInvalid path .unwritable))
    | some text =>
      match d.write path (Utf8.encode text) with
      | .error e => (d, .error (.ofErrno ("writing config to " ++ Utf8.toStringLossy path) e))
      | .ok d => (d, .ok ())

end Depot.Settings
