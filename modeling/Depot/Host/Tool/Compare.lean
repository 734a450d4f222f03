import Depot.Host.Tool.Files
import Depot.Host.Tool.Lines

/-! Differences between texts, line by line. -/

namespace Depot.Host.Tool

open Files

/-- Lines that one text has in the place of lines of another. -/
structure Difference where
  /-- The numbers of lines before the place, in both texts. -/
  (before after : Nat)
  (removed added : List Octets)

namespace Difference

/-- The lengths of the longest sequences that rows of lines share with the ends of a list; the row for
all lines comes first. -/
def lengths (same : Octets → Octets → Bool) (b : List Octets) : List Octets → List (List Nat)
  | [] => [List.replicate (b.length + 1) 0]
  | x :: a =>
    match lengths same b a with
    | [] => []
    | below :: rows => row x b below :: below :: rows
where
  row (x : Octets) : List Octets → List Nat → List Nat
    | y :: b, here :: diagonal :: below =>
      let rest := row x b (diagonal :: below)
      (if same x y then diagonal + 1 else max here (rest.headD 0)) :: rest
    | _, _ => [0]

/-- The differences of two lists of lines, given the lengths that their ends share. What is open so far
stands in the order from the last line to the first. -/
def walk (same : Octets → Octets → Bool) : Nat → Nat → Nat → List Octets → List Octets →
    List (List Nat) → List Octets → List Octets → List Difference
  | 0, _, _, _, _, _, _, _ => []
  | fuel + 1, i, j, a, b, rows, removed, added =>
    let close (rest : List Difference) : List Difference :=
      if removed = [] ∧ added = [] then rest
      else ⟨i - removed.length, j - added.length, removed.reverse, added.reverse⟩ :: rest
    match a, b with
    | [], [] => close []
    | x :: a', [] => walk same fuel (i + 1) j a' [] rows.tail (x :: removed) added
    | [], y :: b' => walk same fuel i (j + 1) [] b' rows removed (y :: added)
    | x :: a', y :: b' =>
      if same x y then
        close (walk same fuel (i + 1) (j + 1) a' b' (rows.tail.map List.tail) [] [])
      else
        let below := ((rows.tail.headD []).headD 0)
        let right := ((rows.headD []).tail.headD 0)
        if below ≥ right then walk same fuel (i + 1) j a' (y :: b') rows.tail (x :: removed) added
        else walk same fuel i (j + 1) (x :: a') b' (rows.map List.tail) removed (y :: added)

/-- The differences of two texts, after the lines that both begin with. -/
def all (same : Octets → Octets → Bool) (a b : List Octets) : List Difference :=
  let shared := ((a.zip b).takeWhile fun p => same p.1 p.2).length
  let (a', b') := (a.drop shared, b.drop shared)
  let ending := ((a'.reverse.zip b'.reverse).takeWhile fun p => same p.1 p.2).length
  let (a'', b'') := (a'.take (a'.length - ending), b'.take (b'.length - ending))
  walk same (a''.length + b''.length + 1) shared shared a'' b'' (lengths same b'' a'') [] []

def marked (mark : String) (line : Octets) : Octets :=
  octets mark ++ line ++
    if line.getLast? = some '\n' then [] else octets "\n\\ No newline at end of file\n"

def range (before count : Nat) : Octets :=
  if count = 0 then digits before
  else if count = 1 then digits (before + 1)
  else digits (before + 1) ++ ',' :: digits (before + count)

def shown (d : Difference) : Octets :=
  let letter := if d.removed = [] then 'a' else if d.added = [] then 'd' else 'c'
  range d.before d.removed.length ++ letter :: range d.after d.added.length ++ ['\n'] ++
    d.removed.flatMap (marked "< ") ++
    (if letter = 'c' then octets "---\n" else []) ++ d.added.flatMap (marked "> ")

/-- Differences that are shown together, for their contexts touch. -/
def together (context : Nat) : List Difference → List (List Difference)
  | [] => []
  | d :: ds =>
    match together context ds with
    | (e :: es) :: rest =>
      if e.before ≤ d.before + d.removed.length + 2 * context then (d :: e :: es) :: rest
      else [d] :: (e :: es) :: rest
    | rest => [d] :: rest

def hunk (context : Nat) (a : List Octets) (ds : List Difference) : Octets :=
  match ds, ds.getLast? with
  | first :: _, some last =>
    let start := first.before - context
    let lead := first.before - start
    let tail := min context (a.length - (last.before + last.removed.length))
    let count := last.before + last.removed.length + tail - start
    let start' := first.after - lead
    let count' := last.after + last.added.length + tail - start'
    let range (before count : Nat) : Octets :=
      if count = 0 then digits before ++ octets ",0"
      else if count = 1 then digits (before + 1)
      else digits (before + 1) ++ ',' :: digits count
    let (body, place) := ds.foldl (fun (body, place) d =>
      (body ++ ((a.drop place).take (d.before - place)).flatMap (marked " ") ++
        d.removed.flatMap (marked "-") ++ d.added.flatMap (marked "+"), d.before + d.removed.length))
      (([] : Octets), start)
    octets "@@ -" ++ range start count ++ octets " +" ++ range start' count' ++ octets " @@\n" ++ body ++
      ((a.drop place).take tail).flatMap (marked " ")
  | _, _ => []

end Difference

structure Comparison where
  o : Options
  /-- The lines around differences that are shown. -/
  context : Option Nat
  /-- The options as they were given. -/
  given : List Octets

namespace Comparison

/-- The part of a line that counts. -/
def essence (c : Comparison) (line : Octets) : Octets :=
  let line := if c.o.has 'i' then line.map Char.toLower else line
  if c.o.has 'w' then line.filter fun c => !isSpace c
  else if c.o.has 'b' then
    let parts := runs isSpace ((line.reverse.dropWhile isSpace).reverse)
    parts.flatMap fun (isGap, part) => if isGap then [' '] else part
  else line

def same (c : Comparison) (a b : Octets) : Bool := c.essence a = c.essence b

/-- The text of a file; one that is missing may be taken for empty. -/
def load (c : Comparison) (file : Octets) : Work (Except Octets Octets) := do
  match ← Work.text file with
  | .ok text => return .ok text
  | .error reason => if c.o.has 'N' ∧ (← lstat? file).isNone then return .ok [] else return .error reason

def files (c : Comparison) (heading : Octets) (a b : Octets) : Work Unit := do
  match ← c.load a, ← c.load b with
  | .ok x, .ok y =>
    let (xs, ys) := (fullLines x, fullLines y)
    let isSame := x = y || (xs.length = ys.length && (xs.zip ys).all fun p => c.same p.1 p.2)
    if isSame then
      if c.o.has 's' then
        Work.putLine (octets "Files " ++ a ++ octets " and " ++ b ++ octets " are identical")
    else
      modify fun bench => { bench with status := max bench.status 1 }
      if c.o.has 'q' then
        Work.putLine (octets "Files " ++ a ++ octets " and " ++ b ++ octets " differ")
      else if (x.contains '\x00' ∨ y.contains '\x00') ∧ !c.o.has 'a' then
        Work.putLine (octets "Binary files " ++ a ++ octets " and " ++ b ++ octets " differ")
      else
        let ds := Difference.all c.same xs ys
        Work.put heading
        match c.context with
        | none => Work.put (ds.flatMap Difference.shown)
        | some context =>
          let labels := (c.o.found.filter fun f => f.1 = 'L').map (·.2)
          let time := octets "\t1970-01-01 00:00:00.000000000 +0000"
          Work.putLine (octets "--- " ++ labels.headD (a ++ time))
          Work.putLine (octets "+++ " ++ labels.tail.headD (b ++ time))
          Work.put ((Difference.together context ds).flatMap (Difference.hunk context xs))
  | r, s =>
    for (file, r) in [(a, r), (b, s)] do
      if let .error reason := r then Work.warn (file ++ octets ": " ++ reason) 2

def directories (c : Comparison) : Nat → Octets → Octets → Work Unit
  | 0, _, _ => return ()
  | fuel + 1, a, b => do
    let d := (← get).disk
    let names := ((namesIn d a ++ namesIn d b).mergeSort fun x y => !decide (y < x)).eraseDups
    for name in names do
      let (x, y) := (below a name, below b name)
      match ← stat? x, ← stat? y with
      | some (.dir ..), some (.dir ..) =>
        if c.o.has 'r' then directories c fuel x y
        else Work.putLine (octets "Common subdirectories: " ++ x ++ octets " and " ++ y)
      | some nx, some ny =>
        if nx.isDir || ny.isDir then
          modify fun bench => { bench with status := max bench.status 1 }
          let kind (n : Node) : Octets := octets (kindText n)
          Work.putLine (octets "File " ++ x ++ octets " is a " ++ kind nx ++ octets " while file " ++ y ++
            octets " is a " ++ kind ny)
        else
          let words := c.given ++ [x, y]
          c.files (octets "diff " ++ joinWith [' '] words ++ ['\n']) x y
      | nx, _ =>
        if c.o.has 'N' then
          c.files (octets "diff " ++ joinWith [' '] (c.given ++ [x, y]) ++ ['\n']) x y
        else
          modify fun bench => { bench with status := max bench.status 1 }
          Work.putLine (octets "Only in " ++ (if nx.isSome then a else b) ++ octets ": " ++ name)

end Comparison

def compareTexts : Work Unit := do
  let call ← read
  modify fun b => { b with usage := octets "diff: " }
  let o ← Options.read "abBiNqrsuU:wL:" [.flag 'q' "brief", .flag 's' "report-identical-files",
    .flag 'r' "recursive", .flag 'i' "ignore-case", .flag 'w' "ignore-all-space",
    .flag 'b' "ignore-space-change", .flag 'N' "new-file", .loose 'u' "unified", .valued 'L' "label",
    .flag 'a' "text", .flag 'n' "normal"] call.args false 2
  let context := match o.value? 'U' with
    | some n => some (naturalOf n)
    | none => match o.value? 'u' with
      | some n => some (if n = [] then 3 else naturalOf n)
      | none => none
  let given := call.args.filter fun a => a.head? = some '-' && a.length > 1
  let c : Comparison := ⟨o, context, given⟩
  match o.operands with
  | [] => Work.misused (octets "missing operand after 'diff'") 2
  | [a] => Work.misused (octets "missing operand after " ++ inQuotes a) 2
  | _ :: _ :: extra :: _ => Work.misused (octets "extra operand " ++ inQuotes extra) 2
  | [a, b] =>
    match ← isDirectory a, ← isDirectory b with
    | true, true => c.directories 100 a b
    | true, false =>
      if (← lstat? b).isNone ∧ b ≠ ['-'] then Work.warn (b ++ octets ": No such file or directory") 2
      else c.files [] (below a (baseName b [])) b
    | false, true =>
      if (← lstat? a).isNone ∧ a ≠ ['-'] then Work.warn (a ++ octets ": No such file or directory") 2
      else c.files [] a (below b (baseName a []))
    | false, false => c.files [] a b

end Depot.Host.Tool
