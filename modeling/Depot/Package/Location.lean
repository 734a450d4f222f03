import Depot.History.Branch
import Depot.Package.Target
import Depot.Pairs

/-! Where the content of a package is looked for. -/

namespace Depot

/-- A part of a package and its repository path. -/
structure Location where
  target : TargetId
  name : String
  path : String
  deriving DecidableEq, Repr

/-- A branch that may hold a location. -/
structure BranchHandle where
  location : Location
  name : String
  deriving DecidableEq, Repr

namespace Location

def isDefault (l : Location) : Bool := l.name = Branch.defaultLocation

def text (l : Location) : String := l.target.text ++ "@" ++ l.name

/-- The branches that may hold the location, in search order. -/
def branches (l : Location) : List BranchHandle :=
  (Branch.candidates l.target.text l.name).map fun name => ⟨l, name⟩

end Location

/-- The declared locations of packages. -/
structure Catalog where
  packages : List (TargetId × List LocationEntry) := []
  deriving DecidableEq, Repr

namespace Catalog

/-- Declares packages in order; the last declaration of an id counts. -/
def declare (c : Catalog) : List PackageEntry → Except Failure Catalog
  | [] => .ok c
  | p :: ps =>
    match TargetId.parse p.id with
    | .error f => .error f
    | .ok id => declare ⟨assocSet id p.locations c.packages⟩ ps

def ofPackages (packages : List PackageEntry) : Except Failure Catalog :=
  ({} : Catalog).declare packages

def declared (c : Catalog) (id : TargetId) : List LocationEntry := (assoc? id c.packages).getD []

/-- The locations of a package, in search order. Unless one is declared, a default location that
reads the path of the id itself comes last. -/
def locations (c : Catalog) (id : TargetId) : List Location :=
  let own := (c.declared id).map fun l => (⟨id, l.name, l.path⟩ : Location)
  if (c.declared id).any fun l => l.name = Branch.defaultLocation then own
  else own ++ [⟨id, Branch.defaultLocation, id.text⟩]

def location? (c : Catalog) (id : TargetId) (name : String) : Option Location :=
  (c.locations id).find? fun l => l.name = name

end Catalog

end Depot
