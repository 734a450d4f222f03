import Depot.Settings.Rules
import Depot.Toml.Reader
import Depot.Toml.Writer

/-!
Settings as a TOML document. Keys that are not known are passed over and keys that are missing have
their defaults. A record may also be given as an array of its fields, in order; and a date counts as
a record without known fields.
-/

namespace Depot.Settings

open Toml

private def key (name : String) : Key := name.toList

def string? : Value → Option String
  | .string cs => some (String.ofList cs)
  | _ => none

/-- The fields of a record, if a value can be one. -/
def fields? (names : List String) : Value → Option (List (Option Value))
  | .table _ es => some (names.map fun name => Entries.find? (key name) es)
  | .array items => some (names.mapIdx fun i _ => items[i]?)
  | .tables elements => some (names.mapIdx fun i _ => (elements[i]?).map (.table .defined))
  | .moment _ => some (names.map fun _ => none)
  | _ => none

/-- The only field of a record, a text; `some none` if the record or the field is missing. -/
def sectionText? (name : String) : Option Value → Option (Option String)
  | none => some none
  | some v =>
    match fields? [name] v with
    | some [some field] => (string? field).map some
    | some _ => some none
    | none => none

def list? : Value → Option (List Value)
  | .array items => some items
  | .tables elements => some (elements.map (.table .defined))
  | _ => none

def location? (v : Value) : Option LocationEntry :=
  match fields? ["name", "path"] v with
  | some [some name, some path] => do return ⟨← string? name, ← string? path⟩
  | _ => none

def package? (v : Value) : Option PackageEntry :=
  match fields? ["id", "locations"] v with
  | some [some id, none] => do return ⟨← string? id, []⟩
  | some [some id, some locations] => do
    return ⟨← string? id, ← (← list? locations).mapM location?⟩
  | _ => none

def ofEntries? (default : Settings) (es : Entries) : Option Settings := do
  let logFormat ← sectionText? "log_format" (Entries.find? (key "general") es)
  let repository ← sectionText? "mirror_path" (Entries.find? (key "repository") es)
  let root ← sectionText? "root" (Entries.find? (key "cache") es)
  let packages ← match Entries.find? (key "packages") es with
    | none => some default.packages
    | some v => do (← list? v).mapM package?
  return {
    logFormat := logFormat.getD default.logFormat
    repository := (repository.map Utf8.ofString).getD default.repository
    cacheRoot := (root.map Utf8.ofString).getD default.cacheRoot
    packages := packages }

private def line (name : String) (value : List Char) : List Char :=
  name.toList ++ " = ".toList ++ quoted value ++ ['\n']

def locationText (l : LocationEntry) : List Char :=
  "\n[[packages.locations]]\n".toList ++ line "name" l.name.toList ++ line "path" l.path.toList

def packageText (p : PackageEntry) : List Char :=
  "\n[[packages]]\n".toList ++ line "id" p.id.toList ++
    if p.locations = [] then "locations = []\n".toList else p.locations.flatMap locationText

/-- The document of settings: all keys, the packages last. -/
def text (s : Settings) : List Char :=
  (if s.packages = [] then "packages = []\n\n".toList else []) ++
  "[general]\n".toList ++ line "log_format" s.logFormat.toList ++
  "\n[repository]\n".toList ++ line "mirror_path" (Utf8.lossy s.repository) ++
  "\n[cache]\n".toList ++ line "root" (Utf8.lossy s.cacheRoot) ++
  s.packages.flatMap packageText

/-- The document of settings whose paths are texts. No others can be written. -/
def text? (s : Settings) : Option (List Char) :=
  if Utf8.IsValid s.repository ∧ Utf8.IsValid s.cacheRoot then some s.text else none

end Depot.Settings
