import Depot.History.Configuration
import Depot.History.Objects
import Depot.History.Refs

/-! Repositories: what makes a directory one, and how one is made. -/

namespace Depot.Repository

open Files

def headName : Name := Utf8.ofString "HEAD"
def refsName : Name := Utf8.ofString "refs"
def configName : Name := Utf8.ofString "config"

/-- The name of the directory of a clone that is its repository. -/
def gitName : Name := Utf8.ofString ".git"

/-- What a head says: the name of a ref, or an id. -/
def isHead (data : Bytes) : Bool :=
  let cs := Octets.ofBytes data
  if (octets "ref:").isPrefixOf cs ∧ (octets "refs/").isPrefixOf (dropGap (cs.drop 4)) then true
  else (Refs.leadingId? cs).isSome

def hasHead (d : Disk) (dir : Bytes) : Bool :=
  let path := Path.below dir [headName]
  match d.lstat path with
  | .ok (.link target) => (octets "refs/").isPrefixOf (Octets.ofBytes target)
  | .ok (.file ..) => (d.read path).toOption.any isHead
  | _ => false

/-- A directory, or a file that its owner may run. -/
def canEnter (d : Disk) (path : Bytes) : Bool :=
  match d.stat path with
  | .ok (.dir ..) => true
  | .ok (.file mode _) => mode &&& Disk.ownerRun ≠ 0
  | _ => false

/-- The directory has what makes it a repository. -/
def isRepository (d : Disk) (dir : Bytes) : Bool :=
  hasHead d dir && canEnter d (Path.below dir [Objects.objectsName]) &&
    canEnter d (Path.below dir [refsName])

/-- The configuration of a repository, if there is one, lets it be used. -/
def isConfigured (d : Disk) (dir : Bytes) : Bool :=
  match d.read (Path.below dir [configName]) with
  | .ok data => Configuration.isUsable data
  | .error .notFound | .error .notDirectory => true
  | .error _ => false

/-- Where a file says that the repository is. -/
def redirection? (d : Disk) (path : Bytes) : Option Bytes :=
  match d.stat path with
  | .ok (.file _ data) =>
    let mark := Utf8.ofString "gitdir: "
    let cs := ((Octets.ofBytes data).reverse.dropWhile fun c => c = '\n' || c = '\x0d').reverse
    if mark.isPrefixOf data ∧ cs.length > mark.length then
      some (Path.join ((Path.parent? path).getD []) (Octets.toBytes (cs.drop mark.length)))
    else none
  | _ => none

/-- The directory of the repository that a path names. -/
def find? (d : Disk) (path : Bytes) : Option Bytes :=
  let dir := (redirection? d path).getD path
  if isRepository d dir && isConfigured d dir then some dir else none

/-- A step of making a repository that has failed. -/
inductive Obstacle where
  /-- The directory cannot be entered or its configuration or models cannot be read. -/
  | unusable
  | directory (path : Bytes) (reason : Errno)
  deriving DecidableEq, Repr

/-- Makes directories that may be there already. -/
def makeEach (d : Disk) : List Bytes → Disk × Option Obstacle
  | [] => (d, none)
  | path :: rest =>
    match d.makeDir path with
    | .ok d => makeEach d rest
    | .error .exists => makeEach d rest
    | .error e => (d, some (.directory path e))

/-- What every new repository gets. -/
def furnishing : List (List String × Option String) :=
  [(["branches"], none), (["hooks"], none), (["info"], none),
    (["description"], some "Unnamed repository; edit this file 'description' to name the repository.\n"),
    (["hooks", "update.sample"], some "#!/bin/sh\n"), (["info", "exclude"], some "")]

/-- Adds what is missing of the furnishing. -/
def furnish (d : Disk) (dir : Bytes) : List (List String × Option String) → Disk × Option Obstacle
  | [] => (d, none)
  | (names, text?) :: rest =>
    let path := Path.below dir (names.map Utf8.ofString)
    match text? with
    | none => furnish ((d.makeDir path).toOption.getD d) dir rest
    | some text =>
      match d.lstat path with
      | .ok _ => furnish d dir rest
      | .error .notFound =>
        match d.write path (Utf8.ofString text) with
        | .ok d => furnish d dir rest
        | .error _ => (d, some .unusable)
      | .error _ => (d, some .unusable)

/-- Makes the head, unless there is anything of that name. -/
def makeHead (d : Disk) (dir : Bytes) (ref : String) : Disk × Option Obstacle :=
  let path := Path.below dir [headName]
  match d.lstat path with
  | .ok _ => (d, none)
  | .error _ =>
    if (Refs.table d dir).toOption.any Refs.Table.isSound then
      ((d.write path (Utf8.ofString ("ref: " ++ ref ++ "\n"))).toOption.getD d, none)
    else (d, some .unusable)

def makeConfig (d : Disk) (dir : Bytes) : Disk :=
  let path := Path.below dir [configName]
  let data := match d.read path with
    | .ok old => Configuration.renewed old
    | .error _ => Configuration.defaults
  (d.write path data).toOption.getD d

/-- Makes a directory a repository, or adds what one lacks. -/
def fill (d : Disk) (dir : Bytes) (ref : String) : Disk × Option Obstacle :=
  if !isConfigured d dir then (d, some .unusable)
  else match furnish d dir furnishing with
    | (d, some obstacle) => (d, some obstacle)
    | (d, none) =>
      let below (names : List String) := Path.below dir (names.map Utf8.ofString)
      match makeEach d [below ["refs"], below ["refs", "heads"], below ["refs", "tags"]] with
      | (d, some obstacle) => (d, some obstacle)
      | (d, none) =>
        match makeHead d dir ref with
        | (d, some obstacle) => (d, some obstacle)
        | (d, none) =>
          makeEach (makeConfig d dir)
            [below ["objects"], below ["objects", "pack"], below ["objects", "info"]]

def firstRef : String := "refs/heads/master"

/-- Makes the directory of a path a repository. -/
def make (d : Disk) (path : Bytes) : Disk × Option Obstacle :=
  let enter (d : Disk) := (d.locate path).toOption.bind fun found =>
    if found.2.isDir then some (Disk.pathOf found.1) else none
  match enter d with
  | some dir => fill d dir firstRef
  | none =>
    match d.makeDirs path with
    | .error _ => (d, some .unusable)
    | .ok d => match enter d with
      | some dir => fill d dir firstRef
      | none => (d, some .unusable)

end Depot.Repository
