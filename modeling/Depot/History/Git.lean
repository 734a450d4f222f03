import Depot.History.WorkTree
import Depot.History.World

/-! The repository commands that the depot runs, and what they do. -/

namespace Depot

open Files

inductive GitRun where
  | init (repo : Bytes)
  | probe (repo : Bytes)
  | tip (repo : Bytes) (branch : String)
  | branches (repo : Bytes)
  | clone (repo : Bytes) (branch : String) (dest : Bytes)
  | head (dir : Bytes)

namespace GitRun

def verb : GitRun → GitVerb
  | init _ => .init
  | clone .. => .clone
  | branches _ => .forEachRef
  | probe _ | tip .. | head _ => .revParse

def words : GitRun → List Bytes
  | init repo => [Utf8.ofString "init", Utf8.ofString "--bare", Utf8.ofString "--quiet", repo]
  | probe repo =>
    [Utf8.ofString "--git-dir", repo, Utf8.ofString "rev-parse", Utf8.ofString "--git-dir"]
  | tip repo branch =>
    [Utf8.ofString "--git-dir", repo, Utf8.ofString "rev-parse", Utf8.ofString "--verify",
      Utf8.ofString "--quiet", Utf8.ofString ("refs/heads/" ++ branch ++ "^\x7bcommit\x7d")]
  | branches repo =>
    [Utf8.ofString "--git-dir", repo, Utf8.ofString "for-each-ref",
      Utf8.ofString "--format=%(refname)", Utf8.ofString "refs/heads/"]
  | clone repo branch dest =>
    ["clone", "--quiet", "--local", "--shared", "--single-branch", "--no-tags", "--branch",
      branch, "--"].map Utf8.ofString ++ [repo, dest]
  | head dir =>
    [Utf8.ofString "-C", dir, Utf8.ofString "rev-parse", Utf8.ofString "HEAD"]

def command (run : GitRun) : Command := ⟨Utf8.ofString "git", run.words, none⟩

end GitRun

namespace Finished

def said (text : String) : Finished := ⟨Utf8.ofString text, [], some 0⟩

/-- The end of a repository command that cannot go on. -/
def fatal (text : String) : Finished := ⟨[], Utf8.ofString ("fatal: " ++ text ++ "\n"), some 128⟩

def notRepository (path : Bytes) : Finished :=
  fatal ("not a git repository: '" ++ Utf8.toStringLossy path ++ "'")

end Finished

namespace World

/-- The directory that a clone of a path is made from. -/
def cloneSource? (d : Disk) (repo : Bytes) : Option Bytes :=
  let git := Path.below repo [Repository.gitName]
  let named := repo ++ Utf8.ofString ".git"
  (([git, repo, Path.below named [Repository.gitName], named].map fun path =>
      (Repository.redirection? d path).getD path).find? (Repository.isRepository d)).filter
    (Repository.isConfigured d)

/-- What can be cloned under the name of a branch: a branch, or else a tag. All packed refs must be
sound. -/
def branchOrTag? (d : Disk) (source : Bytes) (branch : String) :
    Except Refs.Damage (Option (Octets × Octets)) := do
  let t ← Refs.table d source
  if !t.isSound then throw .packedList
  let names := (← t.names (octets "refs/heads")) ++ (← t.names (octets "refs/tags"))
  t.first? ([RefName.ofBranch branch, octets ("refs/tags/" ++ branch)].filter names.contains)

/-- The id of a commit that a repository has. -/
def knows (w : World) (repo : Bytes) (id : Octets) : Bool :=
  Objects.areIn w.disk repo [id] && (assoc? ⟨String.ofList id⟩ w.commits).isSome

/-- The repository of a clone: its head is at a ref, and it shares the objects of the source. -/
def cloneRepository (source : Bytes) (ref id : Octets) : Entries :=
  let file (text : Octets) : Node := .file 0o644 (Octets.toBytes text)
  let branch := (octets "refs/heads/").length
  let isBranch := (octets "refs/heads/").isPrefixOf ref
  let head := if isBranch then octets "ref: " ++ ref else id
  let objects := Octets.ofBytes (Path.below source [Objects.objectsName])
  let named (names : List (String × Node)) : Entries :=
    names.foldl (fun es n => Entries.insert (Utf8.ofString n.1) n.2 es) []
  named [
    ("HEAD", file (head ++ ['\n'])),
    ("config", .file 0o644 (Utf8.ofString "[core]\n\trepositoryformatversion = 0\n\tbare = false\n")),
    ("objects", .dir 0o755 (named [
      ("info", .dir 0o755 (named [("alternates", file (objects ++ ['\n']))])),
      ("pack", .dir 0o755 [])])),
    ("packed-refs", file (Refs.packedText (if isBranch then
      [⟨id ++ ' ' :: ref, none⟩, ⟨id ++ octets " refs/remotes/origin/" ++ ref.drop branch, none⟩]
      else [⟨id ++ ' ' :: ref, none⟩]))),
    ("refs", .dir 0o755 (named [("heads", .dir 0o755 []), ("tags", .dir 0o755 [])]))]

def checkOut (w : World) (place : Place) (source : Bytes) (ref id : Octets) : World × Finished :=
  let git : Node := .dir 0o755 (cloneRepository source ref id)
  let snapshot? := assoc? ⟨String.ofList id⟩ w.commits
  let tree? := snapshot?.bind fun s =>
    if Objects.areIn w.disk source s.objects then WorkTree.ofTree? s.tree else none
  match tree? with
  | some tree =>
    ({ w with disk := w.disk.put place (.dir 0o755 (Entries.insert Repository.gitName git tree)) },
      .said "")
  | none =>
    ({ w with disk := w.disk.put place (.dir 0o755 [(Repository.gitName, git)]) },
      .fatal "unable to checkout working tree")

/-- A missing path, or an empty directory. -/
def isFree (d : Disk) (path : Bytes) : Bool :=
  match d.stat path with
  | .ok (.dir _ []) => true
  | .ok _ => false
  | .error _ => true

/-- Clones a branch of a repository into a missing or empty directory. The directories above it
stay even if there is nothing to clone. A tag of what is no commit ends the command at once. -/
def clone (w : World) (repo : Bytes) (branch : String) (dest : Bytes) : World × Finished :=
  match cloneSource? w.disk repo with
  | none => (w, .fatal ("repository '" ++ Utf8.toStringLossy repo ++ "' does not exist"))
  | some source =>
    if !isFree w.disk dest then
      (w, .fatal ("destination path '" ++ Utf8.toStringLossy dest ++
        "' already exists and is not an empty directory."))
    else
      let above := ((Path.parent? dest).bind fun dir => (w.disk.makeDirs dir).toOption).getD w.disk
      let noWorkTree := Finished.fatal "could not create work tree dir"
      match above.makeDirs dest with
      | .error _ => ({ w with disk := above }, noWorkTree)
      | .ok made =>
        match made.locate dest, branchOrTag? above source branch with
        | .error _, _ => ({ w with disk := above }, noWorkTree)
        | _, .error _ => ({ w with disk := above }, .fatal "the remote end hung up unexpectedly")
        | _, .ok none =>
          ({ w with disk := above }, .fatal ("Remote branch " ++ branch ++ " not found"))
        | .ok (place, _), .ok (some (ref, id)) =>
          if w.knows source id then checkOut { w with disk := made } place source ref id
          else if ref = RefName.ofBranch branch then
            ({ w with disk := above }, .fatal "update_ref failed for ref 'HEAD'")
          else ({ w with disk := made.put place (.dir 0o755 [(Repository.gitName, .dir 0o755 [])]) },
            ⟨[], [], none⟩)

/-- The repository that a directory belongs to: its own, or that of a directory above it. The names
of the directories on the way to it are given last one first. -/
def enclosing? (d : Disk) : List Name → Option Bytes
  | [] => ownRepository? d []
  | n :: above => ownRepository? d (n :: above) <|> enclosing? d above
where
  ownRepository? (d : Disk) (above : List Name) : Option Bytes :=
    let dir := Disk.pathOf above.reverse
    Repository.find? d (Path.below dir [Repository.gitName]) <|> Repository.find? d dir

/-- The id that a name stands for, which may be short. -/
def meaning? (d : Disk) (dir : Bytes) (name : Octets) : Except Refs.Damage (Option Octets) := do
  let t ← Refs.table d dir
  return (← t.first? (RefName.expansions name)).map (·.2)

def damagedList : Finished := .fatal "unexpected line in packed-refs"

/-- The id of the head of the repository that a directory belongs to. -/
def headOf (w : World) (dir : Bytes) : Finished :=
  match w.disk.locate dir with
  | .ok (place, .dir ..) =>
    match enclosing? w.disk place.reverse with
    | none => .fatal "not a git repository (or any of the parent directories): .git"
    | some git =>
      match meaning? w.disk git (octets "HEAD") with
      | .error _ => damagedList
      | .ok (some id) => .said (String.ofList id ++ "\n")
      | .ok none => .fatal "ambiguous argument 'HEAD': unknown revision"
  | _ => .fatal ("cannot change to '" ++ Utf8.toStringLossy dir ++ "'")

/-- The ids of the commits of a repository that start with some digits. -/
def idsFrom (w : World) (dir : Bytes) (digits : Octets) : List Octets :=
  (w.commits.map fun c => c.1.text.toList).filter fun id =>
    Refs.leadingId? id = some id && digits.isPrefixOf id && w.knows dir id

/-- The commit that a name describes: the only one whose id starts with the digits at its end. -/
def described? (w : World) (dir : Bytes) (name : Octets) : Option Octets := do
  match w.idsFrom dir (← RefName.describing? name) with
  | [] => none
  | id :: rest => if rest.all (· = id) then some id else none

/-- The commit that a full branch name stands for. A name that is no branch may still be the start
of the full name of one, or describe a commit. -/
def tipOf (w : World) (dir : Bytes) (branch : String) : Finished :=
  let name := RefName.ofBranch branch
  match meaning? w.disk dir name with
  | .error _ => damagedList
  | .ok (some id) =>
    if w.knows dir id then .said (String.ofList id ++ "\n") else ⟨[], [], some 1⟩
  | .ok none =>
    match w.described? dir name with
    | some id => .said (String.ofList id ++ "\n")
    | none => ⟨[], [], some 1⟩

def listing (w : World) (dir : Bytes) : Finished :=
  match Refs.table w.disk dir >>= fun refs => refs.names (octets "refs/heads") with
  | .error _ => damagedList
  | .ok names => ⟨names.flatMap fun name => Octets.toBytes (name ++ ['\n']), [], some 0⟩

def createRepository (w : World) (repo : Bytes) : World × Finished :=
  match Repository.make w.disk repo with
  | (d, none) => ({ w with disk := d }, .said "")
  | (d, some .unusable) =>
    ({ w with disk := d }, .fatal ("cannot make " ++ Utf8.toStringLossy repo ++ " a repository"))
  | (d, some (.directory path e)) =>
    ({ w with disk := d }, ⟨[], path ++ Utf8.ofString (": " ++ e.reason ++ "\n"), some 1⟩)

def runUndisturbed (w : World) : GitRun → World × Finished
  | .init repo => w.createRepository repo
  | .probe repo =>
    match Repository.find? w.disk repo with
    | some dir => (w, .said (Utf8.toStringLossy dir ++ "\n"))
    | none => (w, .notRepository repo)
  | .tip repo branch =>
    match Repository.find? w.disk repo with
    | some dir => (w, w.tipOf dir branch)
    | none => (w, .notRepository repo)
  | .branches repo =>
    match Repository.find? w.disk repo with
    | some dir => (w, w.listing dir)
    | none => (w, .notRepository repo)
  | .clone repo branch dest => w.clone repo branch dest
  | .head dir => (w, w.headOf dir)

def runGit (w : World) (run : GitRun) : World × Finished :=
  match w.takeFault run.verb with
  | (none, w) => w.runUndisturbed run
  | (some (.move repo branch target), w) => (w.moveBranch repo branch target).runUndisturbed run
  | (some (.instead finished), w) => (w, finished)

/-- The output of a repository command that has succeeded. -/
def git (w : World) (run : GitRun) : World × Except Failure String :=
  let (w, finished) := w.runGit run
  (w, finished.output run.command.text)

end World

end Depot
