import Depot.History.Branch
import Depot.History.Git

/-! Reading a repository through repository commands. -/

namespace Depot.History

/-- Makes the place of a repository one. A place where none can be made will do if there is one. -/
def prepare (repo : Bytes) (w : World) : World × Except Failure Unit :=
  match w.git (.init repo) with
  | (w, .ok _) => (w, .ok ())
  | (w, .error f) =>
    match w.git (.probe repo) with
    | (w, .ok _) => (w, .ok ())
    | (w, .error _) => (w, .error f)

/-- What the failure to find a branch means: a quiet refusal says that it does not exist. -/
def tipFailure (branch : String) : Failure → Failure
  | .commandFailed command code output =>
    if code = some 1 then .branchNotFound branch else .commandFailed command code output
  | f => f

def tip (repo : Bytes) (branch : String) (w : World) : World × Except Failure CommitId :=
  match Branch.validate branch with
  | .error f => (w, .error f)
  | .ok _ =>
    match w.git (.tip repo branch) with
    | (w, .error f) => (w, .error (tipFailure branch f))
    | (w, .ok out) =>
      if firstLine out = "" then (w, .error (.branchNotFound branch))
      else (w, .ok (.ofString (firstLine out)))

def headsPrefix : List Char := "refs/heads/".toList

def branchOfLine? (line : List Char) : Option String :=
  let line := trimBlank line
  if headsPrefix.isPrefixOf line then some (String.ofList (line.drop headsPrefix.length)) else none

/-- The branches of a repository, in the order they are listed. -/
def branches (repo : Bytes) (w : World) : World × Except Failure (List String) :=
  match w.git (.branches repo) with
  | (w, .error f) => (w, .error f)
  | (w, .ok out) => (w, .ok ((lines out.toList).filterMap branchOfLine?))

def clone (repo : Bytes) (branch : String) (dest : Bytes) (w : World) :
    World × Except Failure Unit :=
  match Branch.validate branch with
  | .error f => (w, .error f)
  | .ok _ =>
    match w.git (.clone repo branch dest) with
    | (w, .error f) => (w, .error f)
    | (w, .ok _) => (w, .ok ())

def head (dir : Bytes) (w : World) : World × Except Failure CommitId :=
  match w.git (.head dir) with
  | (w, .error f) => (w, .error f)
  | (w, .ok out) => (w, .ok (.ofString (firstLine out)))

end Depot.History
