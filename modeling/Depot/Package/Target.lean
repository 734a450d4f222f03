import Depot.Path.Relative

/-! Package ids: relative paths in normal form that name something. -/

namespace Depot

structure TargetId where
  text : String
  deriving DecidableEq, Repr

def TargetId.parse (id : String) : Except Failure TargetId := do
  let normal ← Path.normalize id
  if normal = "." then throw (.pathInvalid (Utf8.ofString id) "package id must not be empty")
  return ⟨normal⟩

/-- A declared location: a name, and the repository path that holds its content. -/
structure LocationEntry where
  name : String
  path : String
  deriving DecidableEq, Repr

/-- A declared package. Its locations are in search order. -/
structure PackageEntry where
  id : String
  locations : List LocationEntry
  deriving DecidableEq, Repr

end Depot
