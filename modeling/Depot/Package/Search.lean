import Depot.Archive.Contents
import Depot.Checkout.Cache
import Depot.Package.Location

/-!
The search for the content of a package. Locations are tried in order, and in each its branches in
order; the first checkout that has an archive ends the search.
-/

namespace Depot

/-- A source of archives, with a state that checkouts may change. -/
structure Source (σ : Type) where
  checkout : String → String → σ → σ × Except Failure Outcome
  archive : ArchiveHash → Archive

/-- A branch seen at a commit. -/
structure Revision where
  branch : BranchHandle
  commit : CommitId
  archive : Option ArchiveHash
  deriving DecidableEq, Repr

variable {σ : Type}

/-- Checks out the location's path on a branch. A branch that is missing, or that has
a name no branch can have, has no revision. -/
def BranchHandle.revision (b : BranchHandle) (source : Source σ) (s : σ) :
    σ × Except Failure (Option Revision) :=
  match Branch.validate b.name with
  | .error _ => (s, .ok none)
  | .ok _ =>
    match source.checkout b.name b.location.path s with
    | (s, .ok outcome) => (s, .ok (some ⟨b, outcome.commit, outcome.archive⟩))
    | (s, .error f) => if f.isBranchNotFound then (s, .ok none) else (s, .error f)

/-- The first revision among branches that has an archive. -/
def searchBranches (source : Source σ) : List BranchHandle → σ → σ × Except Failure (Option Revision)
  | [], s => (s, .ok none)
  | b :: bs, s =>
    match b.revision source s with
    | (s, .error f) => (s, .error f)
    | (s, .ok (some r)) =>
      if r.archive.isSome then (s, .ok (some r)) else searchBranches source bs s
    | (s, .ok none) => searchBranches source bs s

def Location.search (l : Location) (source : Source σ) (s : σ) :
    σ × Except Failure (Option Revision) :=
  searchBranches source l.branches s

/-- What is found in the first location where anything is. -/
def searchLocations (source : Source σ) : List Location → σ → σ × Except Failure (Option Revision)
  | [], s => (s, .ok none)
  | l :: ls, s =>
    match l.search source s with
    | (s, .error f) => (s, .error f)
    | (s, .ok (some r)) => (s, .ok (some r))
    | (s, .ok none) => searchLocations source ls s

def Catalog.search (c : Catalog) (id : TargetId) (source : Source σ) (s : σ) :
    σ × Except Failure (Option Revision) :=
  searchLocations source (c.locations id) s

end Depot
