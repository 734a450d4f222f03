import Depot.Archive.SafeLink
import Depot.Failure
import Depot.Files.Disk

/-!
Copying a tree into an archive, one entry at a time. Directories and files are copied and safe links
kept. An unsafe link is replaced by what it leads to, and everything below a directory that takes
the place of a link is copied without links. A directory is listed once, right before its copy is
made, but fails to be listed only after that; all else is looked up when its turn comes, so a copy may
meet what was copied before it.
-/

namespace Depot.Archive

open Files

/-- A directory that takes the place of a link, or one below it: the directories on the way to it
and its own, its path on the way, and where its copy goes. -/
structure Visit where
  way : List Place
  path : Bytes
  place : Place
  deriving DecidableEq, Repr

/-- An entry that waits to be copied, with the kind its directory showed. -/
inductive Task where
  /-- An entry of the tree itself. -/
  | entry (place : Place) (kind : Kind)
  /-- An entry of a visited directory. -/
  | inner (visit : Visit) (name : Name) (kind : Kind)
  deriving DecidableEq, Repr

structure Stats where
  files : Nat := 0
  links : Nat := 0
  replaced : Nat := 0
  deriving DecidableEq, Repr

/-- From where to where entries are copied. -/
structure Route where
  source : Bytes
  dest : Bytes
  deriving DecidableEq, Repr

structure Copying where
  disk : Disk
  stats : Stats := {}

/-- What one task leaves: the state after it, and the tasks that come before all others. -/
abbrev Taken := Copying × Except Failure (List Task)

namespace Copying

def failed (c : Copying) (f : Failure) : Taken := (c, .error f)

def change (c : Copying) (action : String) (path : Bytes) (r : Except Errno Disk)
    (next : Copying → Taken) : Taken :=
  match r with
  | .ok d => next { c with disk := d }
  | .error e => c.failed (.ofErrno (action ++ " " ++ Utf8.toStringLossy path) e)

def copyFile (c : Copying) (source dest : Bytes) : Taken :=
  c.change "copying" source (c.disk.copy source dest) fun c =>
    ({ c with stats := { c.stats with files := c.stats.files + 1 } }, .ok [])

def list (c : Copying) (path : Bytes) (task : Name → Kind → Task) : Except Errno (List Task) :=
  (fun es => es.map fun e => task e.1 e.2) <$> c.disk.entries path

def listBelow (c : Copying) (v : Visit) (n : Name) : Except Errno (List Task) := do
  let path := Path.join v.path n
  let (here, _) ← c.disk.locate path
  c.list path (.inner ⟨here :: v.way, path, v.place ++ [n]⟩)

/-- Makes the copy of a directory that has been listed, and only then fails if it could not be. -/
def makeListed (c : Copying) (dest : Bytes) (r : Except Errno Disk)
    (listed : Except Errno (List Task)) (failure : Errno → Failure) : Taken :=
  c.change "creating" dest r fun c => (c, listed.mapError failure)

def walking (path : Bytes) (cause : Cause) : Failure :=
  .io ("walking " ++ Utf8.toStringLossy path) cause

/-- A path below a replacement that cannot be looked up. What is missing is called a broken link. -/
def lost (c : Copying) (path : Bytes) (e : Errno) : Failure :=
  if e = .notFound then .brokenLink path ((c.disk.readLink path).toOption.getD [])
  else walking path (.errno e)

/-- Finds what a link leads to; `shown` is the link as a failure names it. -/
def referent (c : Copying) (path shown target : Bytes) : Except Failure (Place × Node) :=
  (c.disk.resolve path).mapError fun e =>
    if e = .notFound then .brokenLink shown target
    else .ofErrno ("resolving " ++ Utf8.toStringLossy path) e

/-- Puts a directory of copies in the place of a link to the directory at `here`. -/
def openVisit (c : Copying) (route : Route) (here place : Place) : Taken :=
  let path := Disk.pathOf here
  let dest := Path.below (Path.below route.dest place) []
  c.makeListed dest (c.disk.makeDirs dest) (c.list path (.inner ⟨[here], path, place⟩)) (c.lost path)

/-- Copies a link of the tree, or what it leads to. -/
def takeLink (c : Copying) (route : Route) (place : Place) : Taken :=
  let path := Path.below route.source place
  let dest := Path.below route.dest place
  match c.disk.readLink path with
  | .error e => c.failed (.ofErrno ("reading symlink " ++ Utf8.toStringLossy path) e)
  | .ok target =>
    if SafeLink.isSafe place target then
      c.change "creating symlink" dest (c.disk.makeLink target dest) fun c =>
        ({ c with stats := { c.stats with links := c.stats.links + 1 } }, .ok [])
    else match c.referent path (joinWith [Path.slash] place) target with
      | .error f => c.failed f
      | .ok (here, node) =>
        let c := { c with stats := { c.stats with replaced := c.stats.replaced + 1 } }
        if node.isDir then c.openVisit route here place else c.copyFile (Disk.pathOf here) dest

def enterVisit (c : Copying) (route : Route) (v : Visit) (n : Name) : Taken :=
  let dest := Path.below route.dest (v.place ++ [n])
  c.makeListed dest (c.disk.makeDirs dest) (c.listBelow v n) (c.lost (Path.join v.path n))

/-- Copies what a link below a replacement leads to. A link to a directory on the way to the link
itself has no end. -/
def followLink (c : Copying) (route : Route) (v : Visit) (n : Name) : Taken :=
  let path := Path.join v.path n
  match c.disk.locate path with
  | .error e => c.failed (c.lost path e)
  | .ok (here, node) =>
    if node.isDir ∧ here ∈ v.way then c.failed (walking path (.other "file system loop found"))
    else match c.referent path path ((c.disk.readLink path).toOption.getD []) with
      | .error f => c.failed f
      | .ok _ =>
        if node.isDir then c.enterVisit route v n
        else c.copyFile path (Path.below route.dest (v.place ++ [n]))

/-- Carries out one task. Special files of the tree are left out. -/
def take (c : Copying) (route : Route) : Task → Taken
  | .entry place .directory =>
    let path := Path.below route.source place
    let dest := Path.below route.dest place
    c.makeListed dest (c.disk.makeDir dest) (c.list path fun n kind => .entry (place ++ [n]) kind)
      fun e => walking path (.errno e)
  | .entry place .file => c.copyFile (Path.below route.source place) (Path.below route.dest place)
  | .entry place .link => c.takeLink route place
  | .entry _ .special => (c, .ok [])
  | .inner v n .directory => c.enterVisit route v n
  | .inner v n .link => c.followLink route v n
  | .inner v n _ => c.copyFile (Path.join v.path n) (Path.below route.dest (v.place ++ [n]))

/-- The tasks of a tree. A root that is no directory has none. -/
def tasks (d : Disk) (source : Bytes) : Except Failure (List Task) :=
  match d.stat source with
  | .error e => .error (walking source (.errno e))
  | .ok node =>
    if node.isDir then
      ((⟨d, {}⟩ : Copying).list source fun n kind => .entry [n] kind).mapError fun e =>
        walking source (.errno e)
    else .ok []

/-- A copy that was carried on: its state, the number of tasks taken, and why it stopped early. -/
structure Progress where
  copying : Copying
  taken : Nat := 0
  stop : Option Failure := none

/-- Takes tasks in order; `below` carries out those that one of them gives. -/
def takeEach (route : Route) (below : List Task → Progress → Progress) :
    List Task → Progress → Progress
  | [], p => p
  | task :: rest, p =>
    match p.stop with
    | some _ => p
    | none =>
      match p.copying.take route task with
      | (c, .error f) => ⟨c, p.taken + 1, some f⟩
      | (c, .ok more) => takeEach route below rest (below more ⟨c, p.taken + 1, none⟩)

/-- Takes tasks with all that they give, through `levels` directories. -/
def takeAll (route : Route) : Nat → List Task → Progress → Progress
  | 0, [], p => p
  | 0, _ :: _, p => { p with stop := some (walking route.source (.errno .nameTooLong)) }
  | levels + 1, tasks, p => takeEach route (takeAll route levels) tasks p

/-- Takes tasks to the end. No path has more names than bytes. -/
def finish (route : Route) (tasks : List Task) (d : Disk) : Progress :=
  takeAll route Disk.pathLimit tasks ⟨⟨d, {}⟩, 0, none⟩

end Copying

/-- Copies the tree at `source` into the directory `dest`. A failure leaves what was copied
before it. -/
def replicate (d : Disk) (source dest : Bytes) : Disk × Except Failure Stats :=
  match Copying.tasks d source with
  | .error f => (d, .error f)
  | .ok tasks =>
    match Copying.finish ⟨source, dest⟩ tasks d with
    | ⟨c, _, none⟩ => (c.disk, .ok c.stats)
    | ⟨c, _, some f⟩ => (c.disk, .error f)

end Depot.Archive
