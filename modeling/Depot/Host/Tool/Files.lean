import Depot.Host.Builtin
import Depot.Host.Tool.Words

/-! Tools that look at files and directories, and change them. -/

namespace Depot.Host.Tool

open Files

def below (dir name : Octets) : Octets :=
  if dir.getLast? = some '/' then dir ++ name else dir ++ '/' :: name

def dropSlashes (path : Octets) : Octets :=
  let cs := (path.reverse.dropWhile (· = '/')).reverse
  if cs = [] ∧ path ≠ [] then ['/'] else cs

def lstat? (path : Octets) : Work (Option Node) := do
  return ((← get).disk.lstat path.toBytes).toOption

def stat? (path : Octets) : Work (Option Node) := do
  return ((← get).disk.stat path.toBytes).toOption

def isDirectory (path : Octets) : Work Bool := do
  return (← get).disk.isDirectory path.toBytes

def namesIn (d : Disk) (path : Octets) : List Octets :=
  ((d.names path.toBytes).toOption.getD []).map Octets.ofBytes

/-! Listing -/

def kindMark (slashOnly : Bool) : Option Node → Octets
  | some (.dir ..) => ['/']
  | some (.link _) => if slashOnly then [] else ['@']
  | some (.file mode _) => if !slashOnly ∧ mode &&& 0o111 ≠ 0 then ['*'] else []
  | some (.special .fifo) => if slashOnly then [] else ['|']
  | some (.special .socket) => if slashOnly then [] else ['=']
  | _ => []

def sizeOf : Option Node → Nat
  | some (.file _ data) => data.length
  | some (.link target) => target.length
  | some (.dir ..) => 4096
  | _ => 0

structure Listing where
  o : Options

namespace Listing

def order (l : Listing) (d : Disk) (path : Octets → Octets) (names : List Octets) : List Octets :=
  let sorted := names.mergeSort fun a b => !decide (b < a)
  let size (name : Octets) : Nat := sizeOf (d.lstat (path name).toBytes).toOption
  let sorted := if l.o.has 'U' ∨ l.o.has 'f' then names
    else if l.o.has 'S' then sorted.mergeSort fun a b => size a ≥ size b
    else sorted
  if l.o.has 'r' then sorted.reverse else sorted

def entry (l : Listing) (d : Disk) (path name : Octets) : Octets :=
  let mark := if l.o.has 'F' then kindMark false (d.lstat path.toBytes).toOption
    else if l.o.has 'p' then kindMark true (d.lstat path.toBytes).toOption else []
  let name := if l.o.has 'Q' then '"' :: name ++ ['"'] else name
  name ++ mark

def lines (l : Listing) (entries : List Octets) : Octets :=
  if l.o.has 'm' then
    let width := ((l.o.value? 'w').map naturalOf).getD 80
    let (text, _) := entries.foldl (fun (text, column) entry =>
      if text = [] then (entry, entry.length)
      else if width = 0 ∨ column + entry.length + 2 < width then
        (text ++ [',', ' '] ++ entry, column + 2 + entry.length)
      else (text ++ [',', '\n'] ++ entry, entry.length)) (([] : Octets), 0)
    if entries = [] then [] else text ++ ['\n']
  else entries.flatMap (· ++ ['\n'])

def namesOf (l : Listing) (d : Disk) (path : Octets) : List Octets :=
  let names := namesIn d path
  let shown :=
    if l.o.has 'a' ∨ l.o.has 'f' then octets "." :: octets ".." :: names
    else if l.o.has 'A' then names
    else names.filter fun n => n.head? ≠ some '.'
  l.order d (below path) shown

def directory (l : Listing) (d : Disk) (path : Octets) : Octets :=
  l.lines ((l.namesOf d path).map fun n => l.entry d (below path n) n)

def tree (l : Listing) (d : Disk) : Nat → Octets → List Octets
  | 0, _ => []
  | fuel + 1, path =>
    let inner := (l.namesOf d path).filter fun n =>
      n ≠ ['.'] && n ≠ ['.', '.'] && (match d.lstat (below path n).toBytes with
        | .ok (.dir ..) => true
        | _ => false)
    (path ++ [':', '\n'] ++ l.directory d path) :: inner.flatMap fun n => tree l d fuel (below path n)

end Listing

def list : Work Unit := do
  let o ← Options.read "aAbBcCdfFgGhHiIkl1LmnNopqQrRsStuUvw:xXZ" [.flag 'a' "all",
    .flag 'A' "almost-all", .flag 'd' "directory", .flag 'R' "recursive",
    .flag 'r' "reverse", .flag 'F' "classify"] (← read).args false 2
  let l : Listing := ⟨o⟩
  let paths := if o.operands = [] then [octets "."] else o.operands
  let d := (← get).disk
  for path in paths do
    match d.stat path.toBytes, d.lstat path.toBytes with
    | .error _, .ok _ => pure ()
    | .error e, .error _ =>
      Work.warn (octets "cannot access " ++ inShellQuotes path ++ octets ": " ++ Work.errnoText e) 2
    | _, _ => pure ()
  let here := paths.filter fun p => (d.lstat (Octets.toBytes p)).toOption.isSome
  let isListed (p : Octets) : Bool := !o.has 'd' && d.isDirectory p.toBytes &&
    (!(o.has 'F' || o.has 'l') || (match d.lstat p.toBytes with
      | .ok (.link _) => false
      | _ => true))
  let files := l.order d id (here.filter fun p => !isListed p)
  let dirs := l.order d id (here.filter isListed)
  let fileBlock := if files = [] then [] else [l.lines (files.map fun p => l.entry d p p)]
  let dirBlocks := dirs.flatMap fun p =>
    if o.has 'R' then l.tree d (d.root.dirCount + 1) p
    else if paths.length > 1 then [p ++ [':', '\n'] ++ l.directory d p]
    else [l.directory d p]
  Work.put (joinWith ['\n'] (fileBlock ++ dirBlocks))

/-! Directories -/

def makeDirectories : Work Unit := do
  let call ← read
  let o ← Options.read "m:pvZ" [.flag 'p' "parents", .valued 'm' "mode",
    .flag 'v' "verbose"] call.args
  if o.operands = [] then Work.misused (octets "missing operand")
  let mode ← match o.value? 'm' with
    | none => pure (0o777 - (0o777 &&& call.mask))
    | some m =>
      if m ≠ [] ∧ m.all isOctal then pure (valueOf 8 m)
      else match Builtin.symbolicMode? 0o777 m with
        | some n => pure n
        | none => Work.die (octets "invalid mode " ++ inQuotes m)
  for path in o.operands do
    let complaint (e : Errno) := octets "cannot create directory " ++ inShellQuotes path ++
      octets ": " ++ Work.errnoText e
    let isMade ← Work.change (fun d =>
      if o.has 'p' then d.makeDirs path.toBytes else d.makeDir path.toBytes mode) complaint
    if isMade ∧ o.has 'v' then
      Work.putLine (call.name ++ octets ": created directory " ++ inShellQuotes path)

def removeDirectories : Work Unit := do
  let o ← Options.read "pv" [.flag 'p' "parents", .flag 'i' "ignore-fail-on-non-empty",
    .flag 'v' "verbose"] (← read).args
  if o.operands = [] then Work.misused (octets "missing operand")
  let remove (path : Octets) (d : Disk) : Except Errno Disk := do
    match ← d.lstat path.toBytes with
    | .dir _ [] => d.remove (dropSlashes path).toBytes
    | .dir .. => throw .notEmpty
    | _ => throw .notDirectory
  for path in o.operands do
    let parents := if !o.has 'p' then [path]
      else
        let parts := splitAtSep '/' path
        (List.range parts.length).map fun i => joinWith ['/'] (parts.take (parts.length - i))
    let mut goesOn := true
    for path in parents do
      if goesOn then
        goesOn ← Work.change (remove path) fun e =>
          octets "failed to remove " ++ inShellQuotes path ++ octets ": " ++ Work.errnoText e

def remove : Work Unit := do
  let o ← Options.read "dfiIrRv" [.flag 'f' "force", .flag 'r' "recursive",
    .flag 'd' "dir", .flag 'v' "verbose"] (← read).args
  if o.operands = [] ∧ !o.has 'f' then Work.misused (octets "missing operand")
  let isDeep := o.has 'r' || o.has 'R'
  for path in o.operands do
    let shown := inShellQuotes path
    let name := baseName path []
    let refuse (e : Errno) : Octets :=
      octets "cannot remove " ++ shown ++ octets ": " ++ Work.errnoText e
    if (name = ['.'] ∨ name = ['.', '.']) ∧ (isDeep ∨ o.has 'd') then
      Work.warn (octets "refusing to remove '.' or '..' directory: skipping " ++ shown)
    else match (← get).disk.lstat path.toBytes with
      | .error e =>
        if !(o.has 'f' ∧ (e = .notFound ∨ e = .notDirectory)) then Work.warn (refuse e)
      | .ok (.dir _ es) =>
        if isDeep ∨ (o.has 'd' ∧ es.isEmpty) then
          let isGone ← Work.change (fun d => d.remove (dropSlashes path).toBytes) refuse
          if isGone ∧ o.has 'v' then Work.putLine (octets "removed directory " ++ shown)
        else Work.warn (refuse (if o.has 'd' then .notEmpty else .isDirectory))
      | .ok _ =>
        let isGone ← Work.change (fun d => d.remove path.toBytes) refuse
        if isGone ∧ o.has 'v' then Work.putLine (octets "removed " ++ shown)

/-! Files -/

def touch : Work Unit := do
  let call ← read
  let o ← Options.read "acmd:fhr:t:" [.flag 'c' "no-create", .valued 'd' "date",
    .valued 'r' "reference"] call.args
  if o.operands = [] then Work.misused (octets "missing file operand")
  for path in o.operands do
    match (← get).disk.stat path.toBytes with
    | .ok _ => pure ()
    | .error e =>
      if !(o.has 'c' ∧ e = .notFound) then
        let _ ← Work.change (fun d =>
          if path.getLast? = some '/' then .error .notFound
          else d.write path.toBytes [] (0o666 - (0o666 &&& call.mask))) fun e =>
            octets "cannot touch " ++ inShellQuotes path ++ octets ": " ++ Work.errnoText e

structure ModeChange where
  op : Char
  /-- The bits that it is about; zero for those that the mask leaves. -/
  affected : Nat
  value : Nat
  /-- The bits that directories lose only if they are named. -/
  mentioned : Nat
  /-- The value is taken from the old mode. -/
  copies : Bool := false
  /-- Execution is allowed if it was for anyone. -/
  ifAny : Bool := false

namespace ModeChange

def without (a b : Nat) : Nat := a - (a &&& b)

def whole : Nat := 0o7777

def ofNumber (cs : Octets) : ModeChange :=
  let n := valueOf 8 cs
  { op := '='
    affected := whole
    value := n
    mentioned := if cs.length < 5 then (n &&& 0o6000) ||| 0o1777 else whole }

def audience : Char → Nat
  | 'u' => 0o4700
  | 'g' => 0o2070
  | 'o' => 0o1007
  | _ => whole

def permission : Char → Nat
  | 'r' => 0o444
  | 'w' => 0o222
  | 'x' => 0o111
  | 's' => 0o6000
  | 't' => 0o1000
  | _ => 0

/-- The changes of the rest of a part after the letters of whom it is about. -/
def actions (affected : Nat) : Nat → Octets → Option (List ModeChange)
  | 0, _ => none
  | _, [] => some []
  | fuel + 1, op :: cs =>
    if op ∉ ['+', '-', '='] then none
    else
      let isPermission := fun c => c ∈ ['r', 'w', 'x', 'X', 's', 't']
      let more := (actions affected fuel : Octets → Option (List ModeChange))
      match cs with
      | c :: rest =>
        if c ∈ ['u', 'g', 'o'] then do
          let value := audience c &&& 0o777
          let change : ModeChange :=
            { op := op
              affected := affected
              value := value
              mentioned := if affected = 0 then value else affected &&& value
              copies := true }
          return change :: (← more rest)
        else do
          let letters := (c :: rest).takeWhile isPermission
          let value := letters.foldl (fun n c => n ||| permission c) 0
          let change : ModeChange :=
            { op := op
              affected := affected
              value := value
              mentioned := if affected = 0 then value else affected &&& value
              ifAny := letters.contains 'X' }
          return change :: (← more ((c :: rest).drop letters.length))
      | [] => some [{ op := op, affected := affected, value := 0, mentioned := 0 }]

def parse? (cs : Octets) : Option (List ModeChange) :=
  if cs ≠ [] ∧ cs.all isOctal then
    if valueOf 8 cs ≤ whole then some [ofNumber cs] else none
  else do
    let parts ← (splitAtSep ',' cs).mapM fun part =>
      let whom := part.takeWhile fun c => c ∈ ['u', 'g', 'o', 'a']
      let affected := whom.foldl (fun n c => n ||| audience c) 0
      let rest := part.drop whom.length
      if rest = [] then none else actions affected (rest.length + 1) rest
    return parts.flatten

def apply (isDir : Bool) (mask : Nat) (mode : Nat) (c : ModeChange) : Nat :=
  let omitted := if isDir then without 0o6000 c.mentioned else 0
  let value :=
    if c.copies then
      let value := c.value &&& mode
      [0o444, 0o222, 0o111].foldl (fun n bits => if value &&& bits ≠ 0 then n ||| bits else n) value
    else if c.ifAny ∧ (isDir ∨ mode &&& 0o111 ≠ 0) then c.value ||| 0o111
    else c.value
  let value := value &&& (if c.affected = 0 then without whole mask else c.affected)
  let value := without value omitted
  match c.op with
  | '+' => mode ||| value
  | '-' => without mode value
  | _ =>
    let preserved := (if c.affected = 0 then 0 else without whole c.affected) ||| omitted
    (mode &&& preserved) ||| value

def applyAll (isDir : Bool) (mask mode : Nat) (cs : List ModeChange) : Nat :=
  cs.foldl (apply isDir mask) mode

end ModeChange

def modeOf : Node → Nat
  | .file mode _ => mode
  | .dir mode _ => mode ||| Disk.openMode
  | .link _ => 0o777
  | .special _ => 0o644

def permissionText (mode : Nat) : Octets :=
  let bits (n special : Nat) (letter : Char) : Octets :=
    let x := n &&& 1 ≠ 0
    [if n &&& 4 ≠ 0 then 'r' else '-', if n &&& 2 ≠ 0 then 'w' else '-',
      if mode &&& special ≠ 0 then (if x then letter else letter.toUpper)
      else if x then 'x' else '-']
  bits (mode / 64 % 8) 0o4000 's' ++ bits (mode / 8 % 8) 0o2000 's' ++ bits (mode % 8) 0o1000 't'

def changeModes : Work Unit := do
  let call ← read
  let isMode (a : Octets) : Bool := match a with
    | '-' :: c :: cs => (c :: cs).all fun c => "rwxXst,+=-ugoa".toList.contains c
    | _ => false
  let isLoose := call.args.any isMode
  let args := call.args.flatMap fun a => if isMode a then [['-', '-'], a] else [a]
  let o ← Options.read "cfRv" [.flag 'R' "recursive", .flag 'c' "changes",
    .flag 'f' "silent", .flag 'f' "quiet", .flag 'v' "verbose"] args
  match o.operands with
  | [] => Work.misused (octets "missing operand")
  | [mode] => Work.misused (octets "missing operand after " ++ inQuotes mode)
  | mode :: paths =>
    match ModeChange.parse? mode with
    | none => Work.misused (octets "invalid mode: " ++ inQuotes mode)
    | some changes =>
      let change (path : Octets) : Work Unit := do
        if let some node ← stat? path then
          let new := ModeChange.applyAll node.isDir call.mask (modeOf node) changes
          let plain := ModeChange.applyAll node.isDir 0 (modeOf node) changes
          let _ ← Work.change (fun d => d.setMode path.toBytes new) (Work.because path)
          if isLoose ∧ ModeChange.without new plain ≠ 0 then
            Work.warn (nameShown path ++ octets ": new permissions are " ++ permissionText new ++
              octets ", not " ++ permissionText plain)
      for path in paths do
        match (← get).disk.stat path.toBytes with
        | .error e =>
          let isDangling := (← lstat? path).isSome
          if isDangling then
            Work.warn (octets "cannot operate on dangling symlink " ++ inShellQuotes path)
          else Work.warn (octets "cannot access " ++ inShellQuotes path ++ octets ": " ++
            Work.errnoText e)
        | .ok node =>
          change path
          if o.has 'R' ∧ node.isDir then
            for e in node.beneath do
              let inner := below path (joinWith ['/'] (e.1.map Octets.ofBytes))
              match ← lstat? inner with
              | some (.link _) => pure ()
              | _ => change inner

/-! Copies and moves -/

/-- What becomes of each source, and where it goes. -/
def targetsOf (o : Options) (verb : String) : Work (List (Octets × Octets)) := do
  let missing := octets "missing file operand"
  match o.value? 't', o.operands with
  | _, [] => Work.misused missing
  | some dir, sources =>
    if !(← isDirectory dir) then
      Work.die (octets "target directory " ++ inShellQuotes dir ++ octets ": " ++
        octets (if (← stat? dir).isSome then "Not a directory" else "No such file or directory"))
    return sources.map fun s => (s, below dir (baseName s []))
  | none, [source] =>
    Work.misused (octets ("missing destination " ++ verb ++ " after ") ++ inShellQuotes source)
  | none, operands =>
    let sources := operands.dropLast
    let dest := operands.getLastD []
    let isDir ← isDirectory dest
    if isDir ∧ !o.has 'T' then return sources.map fun s => (s, below dest (baseName s []))
    else match sources with
      | [source] => return [(source, dest)]
      | _ => Work.die (octets "target " ++ inShellQuotes dest ++ octets ": " ++
          octets (if (← stat? dest).isSome then "Not a directory" else "No such file or directory"))

/-- A copy of a tree, through links or not. -/
def copyTree (d : Disk) (follow : Bool) (source dest : Octets) : Except Errno Disk := do
  let node ← if follow then d.stat source.toBytes else d.lstat source.toBytes
  match node with
  | .dir .. =>
    let found ← d.find true dest.toBytes
    let merged : Node := match found.node, node with
      | some (.dir mode old), .dir _ es =>
        .dir mode (es.foldl (fun old e => Entries.insert e.1 e.2 old) old)
      | _, node => node
    return d.put found.place merged
  | .link target =>
    let found ← d.find false dest.toBytes
    return d.put found.place (.link target)
  | .file mode data =>
    let found ← d.find true dest.toBytes
    match found.node with
    | none => return d.put found.place (.file mode data)
    | some (.file old _) => return d.put found.place (.file old data)
    | some (.dir ..) => throw .isDirectory
    | some _ => d.write dest.toBytes data
  | _ => throw .invalid

def copy : Work Unit := do
  let o ← Options.read "abdfilLnpPrRst:Tuv" [.flag 'r' "recursive", .flag 'a' "archive",
    .flag 'f' "force", .flag 'n' "no-clobber", .flag 'v' "verbose",
    .valued 't' "target-directory", .flag 'T' "no-target-directory"] (← read).args
  let isDeep := o.has 'r' || o.has 'R' || o.has 'a'
  for (source, dest) in ← targetsOf o "file operand" do
    let d := (← get).disk
    let follow := !(isDeep || o.has 'd' || o.has 'P') || o.has 'L'
    let node := if follow then d.stat source.toBytes else d.lstat source.toBytes
    match node with
    | .error e =>
      Work.warn (octets "cannot stat " ++ inShellQuotes source ++ octets ": " ++ Work.errnoText e)
    | .ok node =>
      let samePlace : Bool := match d.locate source.toBytes, d.locate dest.toBytes with
        | .ok (a, _), .ok (b, _) => a = b
        | _, _ => false
      let isInside : Bool := match d.locate source.toBytes, d.find true dest.toBytes with
        | .ok (a, _), .ok b => a.isPrefixOf b.place && a ≠ b.place
        | _, _ => false
      if node.isDir ∧ !isDeep then
        Work.warn (octets "-r not specified; omitting directory " ++ inShellQuotes source)
      else if node.isDir ∧ isInside then
        Work.warn (octets "cannot copy a directory, " ++ inShellQuotes source ++
          octets ", into itself, " ++ inShellQuotes dest)
      else if o.has 'n' ∧ (d.lstat dest.toBytes).toOption.isSome then pure ()
      else if samePlace then
        Work.warn (inShellQuotes source ++ octets " and " ++ inShellQuotes dest ++
          octets " are the same file")
      else if node.isDir ∧ (d.stat dest.toBytes).toOption.any (!·.isDir) then
        Work.warn (octets "cannot overwrite non-directory " ++ inShellQuotes dest ++
          octets " with directory " ++ inShellQuotes source)
      else if !node.isDir ∧ d.isDirectory dest.toBytes then
        Work.warn (octets "cannot overwrite directory " ++ inShellQuotes dest ++
          octets " with non-directory " ++ inShellQuotes source)
      else
        let isDone ← Work.change (fun d => copyTree d follow source dest) fun e =>
          octets (if node.isDir then "cannot create directory " else "cannot create regular file ") ++
            inShellQuotes dest ++ octets ": " ++ Work.errnoText e
        if isDone ∧ o.has 'v' then
          Work.putLine (inShellQuotes source ++ octets " -> " ++ inShellQuotes dest)

def move : Work Unit := do
  let o ← Options.read "bfint:Tuv" [.flag 'f' "force", .flag 'n' "no-clobber",
    .flag 'v' "verbose", .valued 't' "target-directory",
    .flag 'T' "no-target-directory"] (← read).args
  for (source, dest) in ← targetsOf o "file operand" do
    let d := (← get).disk
    match d.lstat source.toBytes with
    | .error e =>
      Work.warn (octets "cannot stat " ++ inShellQuotes source ++ octets ": " ++ Work.errnoText e)
    | .ok node =>
      let places := (d.find false (dropSlashes source).toBytes, d.find false dest.toBytes)
      let samePlace : Bool := match places with
        | (.ok a, .ok b) => decide (a.place = b.place)
        | _ => false
      if o.has 'n' ∧ (d.lstat dest.toBytes).toOption.isSome then pure ()
      else if samePlace then
        if node.isDir then
          Work.warn (octets "cannot move " ++ inShellQuotes source ++
            octets " to a subdirectory of itself, " ++ inShellQuotes dest)
        else Work.warn (inShellQuotes source ++ octets " and " ++ inShellQuotes dest ++
          octets " are the same file")
      else if node.isDir ∧ (d.lstat dest.toBytes).toOption.any (!·.isDir) then
        Work.warn (octets "cannot overwrite non-directory " ++ inShellQuotes dest ++
          octets " with directory " ++ inShellQuotes source)
      else if !node.isDir ∧ d.isDirectory dest.toBytes then
        Work.warn (octets "cannot overwrite directory " ++ inShellQuotes dest ++
          octets " with non-directory")
      else
        let isDone ← Work.change (fun d =>
            d.rename (dropSlashes source).toBytes (dropSlashes dest).toBytes) fun e =>
          if e = .invalid then
            octets "cannot move " ++ inShellQuotes source ++ octets " to a subdirectory of itself, " ++
              inShellQuotes dest
          else octets "cannot move " ++ inShellQuotes source ++ octets " to " ++ inShellQuotes dest ++
            octets ": " ++ Work.errnoText e
        if isDone ∧ o.has 'v' then
          Work.putLine (octets "renamed " ++ inShellQuotes source ++ octets " -> " ++
            inShellQuotes dest)

def link : Work Unit := do
  let o ← Options.read "bdfiLnPrst:Tv" [.flag 's' "symbolic", .flag 'f' "force",
    .flag 'n' "no-dereference", .flag 'v' "verbose", .valued 't' "target-directory",
    .flag 'T' "no-target-directory"] (← read).args
  let pairs ← match o.operands, o.value? 't' with
    | [target], none => pure [(target, below ['.'] (baseName target []))]
    | _, _ =>
      let dest := o.operands.getLastD []
      let isLink : Bool := match ← lstat? dest with
        | some (.link _) => true
        | _ => false
      if o.has 'n' ∧ isLink then pure [(o.operands.headD [], dest)] else targetsOf o "file operand"
  for (target, dest) in pairs do
    let d := (← get).disk
    let kind := if o.has 's' then "symbolic link " else "hard link "
    let source? := d.lstat target.toBytes
    match source?, o.has 's' with
    | .error e, false =>
      Work.warn (octets "failed to access " ++ inShellQuotes target ++ octets ": " ++
        Work.errnoText e)
    | .ok (.dir ..), false =>
      Work.warn (nameShown target ++ octets ": hard link not allowed for directory")
    | source?, isSymbolic =>
      let isDone ← Work.change (fun d => do
        let isReplaced := o.has 'f' && (d.lstat dest.toBytes).toOption.any (!·.isDir)
        let d ← if isReplaced then d.remove dest.toBytes else pure d
        if isSymbolic then d.makeLink target.toBytes dest.toBytes
        else
          let found ← d.find false dest.toBytes
          match found.node, source? with
          | some _, _ => throw .exists
          | none, .ok node => return d.put found.place node
          | none, .error e => throw e) fun e =>
        octets ("failed to create " ++ kind) ++ inShellQuotes dest ++
          (if e = .exists ∨ !isSymbolic then [] else octets " -> " ++ inShellQuotes target) ++
          octets ": " ++ Work.errnoText e
      if isDone ∧ o.has 'v' then
        Work.putLine (inShellQuotes dest ++ octets (if isSymbolic then " -> " else " => ") ++
          inShellQuotes target)

/-! Paths -/

/-- The path that a path leads to, links followed; `isLoose` lets the last name be missing. -/
def realPath? (d : Disk) (isLoose : Bool) (path : Octets) : Except Errno Octets := do
  let found ← d.find true (dropSlashes path).toBytes
  match found.node with
  | some _ => return .ofBytes (Disk.pathOf found.place)
  | none => if isLoose then return .ofBytes (Disk.pathOf found.place) else throw .notFound

def readLinks : Work Unit := do
  let o ← Options.read "femnqsvz" [.flag 'f' "canonicalize",
    .flag 'e' "canonicalize-existing", .flag 'm' "canonicalize-missing",
    .flag 'n' "no-newline"] (← read).args
  if o.operands = [] then Work.misused (octets "missing operand")
  for path in o.operands do
    let d := (← get).disk
    let r := match o.last? ['f', 'e', 'm'] with
      | none => (d.readLink path.toBytes).map Octets.ofBytes
      | some 'e' => realPath? d false path
      | some 'f' => realPath? d true path
      | some _ => .ok ((realPath? d true path).toOption.getD
          (Builtin.cleanPath (.ofBytes (Disk.pathOf d.cwd)) path))
    match r with
    | .ok text =>
      Work.put (text ++ if o.has 'n' ∧ o.operands.length = 1 then [] else ['\n'])
    | .error e =>
      if o.has 'v' then Work.warn (Work.because path e)
      modify fun b => { b with status := 1 }

def realPaths : Work Unit := do
  let o ← Options.read "emLPqsz" [.flag 'e' "canonicalize-existing",
    .flag 'm' "canonicalize-missing", .flag 's' "strip", .flag 's' "no-symlinks"] (← read).args
  if o.operands = [] then Work.misused (octets "missing operand")
  for path in o.operands do
    let d := (← get).disk
    let clean := Builtin.cleanPath (.ofBytes (Disk.pathOf d.cwd)) path
    let r := if o.has 's' then .ok clean
      else if o.has 'm' then .ok ((realPath? d true path).toOption.getD clean)
      else realPath? d (!o.has 'e') path
    match r with
    | .ok text => Work.putLine text
    | .error e =>
      if o.has 'q' then modify fun b => { b with status := 1 }
      else Work.warn (Work.because path e)

def kindText : Node → String
  | .file _ data => if data = [] then "regular empty file" else "regular file"
  | .dir .. => "directory"
  | .link _ => "symbolic link"
  | .special .fifo => "fifo"
  | .special .socket => "socket"
  | .special .nullDevice => "character special file"

def modeText (node : Node) : Octets :=
  let kind := match node with
    | .file .. => '-'
    | .dir .. => 'd'
    | .link _ => 'l'
    | .special .fifo => 'p'
    | .special .socket => 's'
    | .special .nullDevice => 'c'
  kind :: permissionText (modeOf node)

def fact (path : Octets) (node : Node) : Char → Octets
  | 'n' => path
  | 's' => digits (sizeOf (some node))
  | 'a' => inBase 8 (modeOf node)
  | 'A' => modeText node
  | 'F' => octets (kindText node)
  | 'N' => match node with
    | .link target => inShellQuotes path ++ octets " -> " ++ inShellQuotes (.ofBytes target)
    | _ => inShellQuotes path
  | 'u' | 'g' => ['0']
  | 'U' | 'G' => octets "root"
  | 'h' => ['1']
  | c => ['?', c]

def facts (path : Octets) (node : Node) : Octets → Octets
  | '%' :: '%' :: cs => '%' :: facts path node cs
  | '%' :: c :: cs => fact path node c ++ facts path node cs
  | c :: cs => c :: facts path node cs
  | [] => []

def status : Work Unit := do
  let o ← Options.read "Lfc:t" [.valued 'c' "format", .valued 'p' "printf",
    .flag 'L' "dereference"] (← read).args
  if o.operands = [] then Work.misused (octets "missing operand")
  for path in o.operands do
    let d := (← get).disk
    match if o.has 'L' then d.stat path.toBytes else d.lstat path.toBytes with
    | .error e =>
      Work.warn (octets "cannot statx " ++ inShellQuotes path ++ octets ": " ++ Work.errnoText e)
    | .ok node =>
      match o.value? 'c', o.value? 'p' with
      | some format, _ => Work.putLine (facts path node format)
      | none, some format =>
        let out := facts path node format
        Work.put (unescaped .tool (out.length + 1) out).1
      | none, none => Work.putLine (octets "  File: " ++ path)

def truncate : Work Unit := do
  let call ← read
  let o ← Options.read "cos:r:" [.valued 's' "size", .flag 'c' "no-create"] call.args
  match o.value? 's' with
  | none => Work.misused (octets "you must specify either '--size' or '--reference'")
  | some size =>
    if o.operands = [] then Work.misused (octets "missing file operand")
    for path in o.operands do
      let old := ((← get).disk.read path.toBytes).toOption
      let length := (old.map List.length).getD 0
      let n := match size with
        | '+' :: n => length + naturalOf n
        | '-' :: n => length - naturalOf n
        | n => naturalOf n
      let data := (old.getD []).take n ++ List.replicate (n - length) 0
      if !(o.has 'c' ∧ old.isNone) then
        let _ ← Work.change (fun d => d.write path.toBytes data (0o666 - (0o666 &&& call.mask)))
          fun e => octets "cannot open " ++ inShellQuotes path ++ octets " for writing: " ++
            Work.errnoText e

def unlink : Work Unit := do
  let o ← Options.read "" [] (← read).args
  match o.operands with
  | [] => Work.misused (octets "missing operand")
  | [path] =>
    let _ ← Work.change (fun d => do
      if (← d.lstat path.toBytes).isDir then throw .isDirectory
      d.remove path.toBytes) fun e =>
        octets "cannot unlink " ++ inShellQuotes path ++ octets ": " ++ Work.errnoText e
  | _ :: extra :: _ => Work.misused (octets "extra operand " ++ inQuotes extra)

def makePipes : Work Unit := do
  let o ← Options.read "m:Z" [.valued 'm' "mode"] (← read).args
  if o.operands = [] then Work.misused (octets "missing operand")
  for path in o.operands do
    let _ ← Work.change (fun d => do
      let found ← d.find false path.toBytes
      if found.node.isSome then throw .exists
      return d.put found.place (.special .fifo)) fun e =>
        octets "cannot create fifo " ++ inShellQuotes path ++ octets ": " ++ Work.errnoText e

end Depot.Host.Tool
