import Depot.Checkout.Site
import Depot.Package.Location

/-! The settings of a depot and the rules they keep. -/

namespace Depot

structure Settings extends Site where
  logFormat : String
  packages : List PackageEntry
  deriving DecidableEq, Repr

inductive LogFormat where
  | text | json
  deriving DecidableEq, Repr

/-- The setting is `json` in any case of letters, or else text. -/
def LogFormat.ofSetting (value : String) : LogFormat :=
  if value.toList.map Char.toLower = "json".toList then .json else .text

namespace Settings

/-- Checks the locations of a package, given the names of those before. -/
def checkLocations (id : String) : List String → List LocationEntry → Except String Unit
  | _, [] => .ok ()
  | seen, l :: ls =>
    if l.name = "" ∨ '/' ∈ l.name.toList then
      .error ("package '" ++ id ++ "': invalid location name '" ++ l.name ++ "'")
    else if l.name ∈ seen then
      .error ("package '" ++ id ++ "': duplicate location '" ++ l.name ++ "'")
    else match Path.normalize l.path with
      | .error f =>
        .error ("package '" ++ id ++ "', location '" ++ l.name ++ "': " ++ f.message)
      | .ok _ => checkLocations id (l.name :: seen) ls

/-- Checks packages, given the ids of those before. -/
def checkPackages : List String → List PackageEntry → Except String Unit
  | _, [] => .ok ()
  | seen, p :: ps =>
    match TargetId.parse p.id with
    | .error f => .error f.message
    | .ok _ =>
      if p.id ∈ seen then .error ("duplicate package id '" ++ p.id ++ "'")
      else match checkLocations p.id [] p.locations with
        | .error reason => .error reason
        | .ok _ => checkPackages (p.id :: seen) ps

/-- The first rule that the settings break. -/
def validate (s : Settings) : Except String Unit := checkPackages [] s.packages

end Settings

end Depot
