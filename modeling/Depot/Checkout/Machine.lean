import Depot.Archive.Copying
import Depot.Archive.Fingerprint
import Depot.Checkout.Cache
import Depot.Checkout.Workspace
import Depot.History.Access
import Depot.Package.Search

/-!
A checkout, one step at a time, so that several can be mixed in any order. A checkout finds the
commit of its branch and looks it up in the memo. If it is not there, the checkout takes the lock of
its key, looks again, and builds the archive: it clones the branch, copies the path into a
workspace, hashes the workspace and moves it to its place. What is remembered is the commit really
cloned, and the scratch directories go on every way out.
-/

namespace Depot

open Files

/-- What one builder keeps for all its checkouts. -/
structure Builder where
  cache : Cache := {}
  held : Held Nat := {}
  /-- The repository is known to be a repository. -/
  isReady : Bool := false

/-- A checkout that has to be built. -/
structure Job where
  branch : String
  key : CheckoutKey
  lock : LockId
  deriving DecidableEq, Repr

/-- A build whose clone is complete. -/
structure Build where
  job : Job
  /-- The directory that holds the clone. -/
  scratch : Bytes
  commit : CommitId
  deriving DecidableEq, Repr

namespace Build

def checkout (scratch : Bytes) : Bytes := Path.join scratch (Utf8.ofString "checkout")

end Build

/-- Where a checkout stands, by the step it takes next. -/
inductive Phase where
  | start (branch path : String)
  | prepare (branch path : String)
  | resolve (branch path : String)
  | lookUp (branch : String) (key : CheckoutKey)
  | askLock (branch : String) (key : CheckoutKey)
  | acquire (job : Job)
  | lookAgain (job : Job)
  | makeDirs (job : Job)
  | openScratch (job : Job)
  | clone (job : Job) (scratch : Bytes)
  | readHead (job : Job) (scratch : Bytes)
  | strip (build : Build)
  | locate (build : Build)
  | openWorkspace (build : Build) (source : Bytes)
  | openSource (build : Build) (route : Archive.Route)
  | copy (build : Build) (route : Archive.Route) (tasks : List Archive.Task)
  | hash (build : Build) (workspace : Bytes)
  | share (build : Build) (workspace : Bytes) (hash : ArchiveHash)
  | publish (build : Build) (workspace : Bytes) (hash : ArchiveHash)
  | discard (job : Job) (scratches : List Bytes) (result : Except Failure Outcome)
  | remember (job : Job) (result : Except Failure Outcome)
  | finish (job : Job) (result : Except Failure Outcome)
  | release (result : Except Failure Outcome)
  | done (result : Except Failure Outcome)

namespace Phase

/-- The build section, which the lock of the key guards. -/
def isBuilding : Phase → Bool
  | makeDirs _ | openScratch _ | clone .. | readHead .. | strip _ | locate _ | openWorkspace ..
  | openSource .. | copy .. | hash .. | share .. | publish .. | discard .. | remember .. => true
  | _ => false

/-- The next step of checkout `me`. One that waits for a lock stays where it is. -/
def step (site : Site) (me : Nat) (w : World) (b : Builder) : Phase → World × Builder × Phase
  | start branch path =>
    match Path.normalize path with
    | .error f => (w, b, done (.error f))
    | .ok path => (w, b, prepare branch path)
  | prepare branch path =>
    if b.isReady then (w, b, resolve branch path)
    else match History.prepare site.repository w with
      | (w, .error f) => (w, b, done (.error f))
      | (w, .ok _) => (w, { b with isReady := true }, resolve branch path)
  | resolve branch path =>
    match History.tip site.repository branch w with
    | (w, .error f) => (w, b, done (.error f))
    | (w, .ok commit) => (w, b, lookUp branch ⟨commit, path⟩)
  | lookUp branch key =>
    match b.cache.get? key with
    | some archive => (w, b, done (.ok ⟨key.commit, archive⟩))
    | none => (w, b, askLock branch key)
  | askLock branch key =>
    let (lock, cache) := b.cache.lockFor key
    (w, { b with cache := cache }, acquire ⟨branch, key, lock⟩)
  | acquire job =>
    match b.held.acquire? job.lock me with
    | none => (w, b, acquire job)
    | some held => (w, { b with held := held }, lookAgain job)
  | lookAgain job =>
    match b.cache.get? job.key with
    | some archive => (w, b, release (.ok ⟨job.key.commit, archive⟩))
    | none => (w, b, makeDirs job)
  | makeDirs job =>
    match Workspace.ensure w.disk site.dirs with
    | (d, .error f) => ({ w with disk := d }, b, discard job [] (.error f))
    | (d, .ok _) => ({ w with disk := d }, b, openScratch job)
  | openScratch job =>
    match w.makeScratch site.cloneArea "clone-" with
    | (w, .ok scratch) => (w, b, clone job scratch)
    | (w, .error e) =>
      (w, b, discard job []
        (.error (.ofErrno ("creating workspace in " ++ Utf8.toStringLossy site.cloneArea) e)))
  | clone job scratch =>
    match History.clone site.repository job.branch (Build.checkout scratch) w with
    | (w, .error f) => (w, b, discard job [scratch] (.error f))
    | (w, .ok _) => (w, b, readHead job scratch)
  | readHead job scratch =>
    match History.head (Build.checkout scratch) w with
    | (w, .error f) => (w, b, discard job [scratch] (.error f))
    | (w, .ok commit) => (w, b, strip ⟨job, scratch, commit⟩)
  | strip build =>
    let git := Path.below (Build.checkout build.scratch) [Repository.gitName]
    match w.disk.remove git with
    | .ok d => ({ w with disk := d }, b, locate build)
    | .error e =>
      (w, b, discard build.job [build.scratch]
        (.error (.ofErrno ("removing " ++ Utf8.toStringLossy git) e)))
  | locate build =>
    match Workspace.subtree? w.disk (Build.checkout build.scratch) build.job.key.path with
    | .error f => (w, b, discard build.job [build.scratch] (.error f))
    | .ok none => (w, b, discard build.job [build.scratch] (.ok ⟨build.commit, none⟩))
    | .ok (some source) => (w, b, openWorkspace build source)
  | openWorkspace build source =>
    match w.makeScratch site.workArea "archive-" with
    | (w, .ok workspace) => (w, b, openSource build ⟨source, workspace⟩)
    | (w, .error e) =>
      (w, b, discard build.job [build.scratch]
        (.error (.ofErrno ("creating workspace in " ++ Utf8.toStringLossy site.workArea) e)))
  | openSource build route =>
    match Archive.Copying.tasks w.disk route.source with
    | .ok tasks => (w, b, copy build route tasks)
    | .error f => (w, b, discard build.job [route.dest, build.scratch] (.error f))
  | copy build route (task :: rest) =>
    match Archive.Copying.take ⟨w.disk, {}⟩ route task with
    | (c, .ok more) => ({ w with disk := c.disk }, b, copy build route (more ++ rest))
    | (c, .error f) =>
      ({ w with disk := c.disk }, b, discard build.job [route.dest, build.scratch] (.error f))
  | copy build route [] => (w, b, hash build route.dest)
  | hash build workspace =>
    match Fingerprint.ofTree w.disk workspace with
    | .ok h => (w, b, share build workspace h)
    | .error f => (w, b, discard build.job [workspace, build.scratch] (.error f))
  | share build workspace h =>
    match w.disk.setMode workspace 0o755 with
    | .ok d => ({ w with disk := d }, b, publish build workspace h)
    | .error e =>
      (w, b, discard build.job [workspace, build.scratch]
        (.error (.ofErrno ("setting permissions on " ++ Utf8.toStringLossy workspace) e)))
  | publish build workspace h =>
    match Workspace.publish w.disk workspace (site.archivePath h) with
    | (d, .ok _) =>
      ({ w with disk := d }, b,
        discard build.job [workspace, build.scratch] (.ok ⟨build.commit, some h⟩))
    | (d, .error f) =>
      ({ w with disk := d }, b, discard build.job [workspace, build.scratch] (.error f))
  | discard job (scratch :: rest) result => (w.dropScratch scratch, b, discard job rest result)
  | discard job [] result => (w, b, remember job result)
  | remember job (.ok outcome) =>
    (w, { b with cache := b.cache.insert ⟨outcome.commit, job.key.path⟩ outcome.archive },
      finish job (.ok outcome))
  | remember job (.error f) => (w, b, finish job (.error f))
  | finish job result => (w, { b with cache := b.cache.dropLock job.key }, release result)
  | release result => (w, { b with held := b.held.release me }, done result)
  | done result => (w, b, done result)

def run (site : Site) (me : Nat) : Nat → World → Builder → Phase → World × Builder × Phase
  | 0, w, b, p => (w, b, p)
  | n + 1, w, b, p =>
    let (w, b, p) := step site me w b p
    run site me n w b p

def toCopy (w : World) : Phase → Nat
  | copy _ route tasks => (Archive.Copying.finish route tasks w.disk).taken
  | _ => 0

end Phase

namespace Builder

/-- More steps than a checkout takes before it copies, and more than it takes after. -/
def someSteps : Nat := 32

/-- A checkout from beginning to end, with no other at the same time. -/
def checkout (site : Site) (branch path : String) (w : World) (b : Builder) :
    World × Builder × Except Failure Outcome :=
  let (w, b, p) := Phase.run site 0 someSteps w b (.start branch path)
  let (w, b, p) := Phase.run site 0 (p.toCopy w + someSteps) w b p
  match p with
  | .done result => (w, b, result)
  | _ => (w, b, .error (.internal "checkout has not ended"))

/-- Makes sure that the repository is a repository, once. -/
def prepare (site : Site) (w : World) (b : Builder) : World × Builder × Except Failure Unit :=
  if b.isReady then (w, b, .ok ())
  else match History.prepare site.repository w with
    | (w, .error f) => (w, b, .error f)
    | (w, .ok _) => (w, { b with isReady := true }, .ok ())

end Builder

/-- A builder as a source of archives. -/
def Builder.source (site : Site) : Source (World × Builder) where
  checkout branch path s :=
    let (w, b, result) := Builder.checkout site branch path s.1 s.2
    ((w, b), result)
  archive h := site.archive h

end Depot
