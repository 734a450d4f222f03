import Depot.Host.Glyph
import Depot.Host.Regex
import Depot.Host.Shell
import Depot.Host.Tool.Files

/-! Walks through directories that look for files, as `find` makes them, and what they do there. -/

namespace Depot.Host.Finding

open Files

/-- How a number compares to the one that was asked for. -/
inductive Bound where
  | exactly (n : Nat)
  | above (n : Nat)
  | below (n : Nat)

def Bound.has : Bound → Nat → Bool
  | .exactly n, m => m = n
  | .above n, m => m > n
  | .below n, m => m < n

inductive Expr where
  | always (b : Bool)
  | name (foldsCase : Bool) (pattern : Octets)
  | path (foldsCase : Bool) (pattern : Octets)
  | matching (r : Regex) (style : Regex.Style)
  | kind (letters : List Char)
  | isEmpty
  | size (unit : Nat) (b : Bound)
  | mode (sign : Char) (bits : Nat)
  | links (b : Bound)
  | age (b : Bound)
  | allows (bits : Nat)
  | print (ending : Char)
  | printf (format : Octets)
  /-- Runs a command for the file; in its directory if asked to. -/
  | exec (inPlace : Bool) (words : List Octets)
  /-- Runs commands for many files at a time. -/
  | execMany (number : Nat) (words : List Octets)
  | delete
  | prune
  | quit
  | not (e : Expr)
  | and (a b : Expr)
  | or (a b : Expr)
  | list (a b : Expr)

structure Rules where
  least : Nat := 0
  most : Nat := 1000
  isDeepFirst : Bool := false
  /-- Links are followed. -/
  follows : Bool := false
  /-- Something is done with the files. -/
  acts : Bool := false
  batches : Nat := 0

/-! Reading expressions -/

abbrev Parse := StateT (List Octets × Rules) (Except Octets)

def fail {α : Type} (text : String) : Parse α := throw (octets text)

def peek : Parse (Option Octets) := do return (← get).1.head?

def skip : Parse Unit := modify fun s => (s.1.tail, s.2)

def rule (f : Rules → Rules) : Parse Unit := modify fun s => (s.1, f s.2)

def value (test : Octets) : Parse Octets := do
  match ← peek with
  | some word =>
    skip
    return word
  | none => throw (octets "missing argument to \x60" ++ test ++ ['\''])

def bound (test cs : Octets) : Parse Bound := do
  let (sign, ds) := match cs with
    | '+' :: ds => ('+', ds)
    | '-' :: ds => ('-', ds)
    | ds => ('=', ds)
  if ds = [] ∨ !ds.all Char.isDigit then
    throw (octets "invalid argument \x60" ++ cs ++ octets "' to \x60" ++ test ++ ['\''])
  let n := naturalOf ds
  return if sign = '+' then .above n else if sign = '-' then .below n else .exactly n

/-- The words of a command, up to the mark that ends it, and whether it is for many files. -/
def commandWords : List Octets → Option (List Octets × Bool × List Octets)
  | [] => none
  | [';'] :: rest => some ([], false, rest)
  | ['\x7b', '\x7d'] :: ['+'] :: rest => some ([], true, rest)
  | word :: rest => (commandWords rest).map fun r => (word :: r.1, r.2)

def command (test : Octets) (inPlace : Bool) : Parse Expr := do
  match commandWords (← get).1 with
  | none | some ([], false, _) => throw (octets "missing argument to \x60" ++ test ++ ['\''])
  | some (words, isMany, rest) =>
    let number := (← get).2.batches
    modify fun s => (rest, { s.2 with acts := true, batches := if isMany then number + 1 else number })
    return if isMany then .execMany number words else .exec inPlace words

def limit (test : Octets) : Parse Nat := do
  let n ← value test
  if n = [] ∨ !n.all Char.isDigit then
    throw (octets "Expected a positive decimal integer argument to " ++ test ++ octets ", but got " ++
      inQuotes n)
  return naturalOf n

def primary (word : Octets) : Parse Expr := do
  match String.ofList word with
  | "-true" => return .always true
  | "-false" => return .always false
  | "-name" => return .name false (← value word)
  | "-iname" => return .name true (← value word)
  | "-path" | "-wholename" => return .path false (← value word)
  | "-ipath" | "-iwholename" => return .path true (← value word)
  | "-regex" | "-iregex" =>
    let style : Regex.Style := { foldsCase := word = octets "-iregex" }
    match Regex.parse style (← value word) with
    | .ok (r, _) => return .matching r style
    | .error reason => fail reason
  | "-type" | "-xtype" =>
    let kinds ← value word
    for k in splitAtSep ',' kinds do
      match k with
      | [c] => if c ∉ ['b', 'c', 'd', 'f', 'l', 'p', 's'] then
          throw (octets "Unknown argument to -type: " ++ [c])
      | _ => fail "Arguments to -type should contain only one letter"
    return .kind (kinds.filter (· ≠ ','))
  | "-empty" => return .isEmpty
  | "-size" =>
    let text ← value word
    let unit? : Char → Option Nat
      | 'b' => some 512
      | 'c' => some 1
      | 'w' => some 2
      | 'k' => some 1024
      | 'M' => some 1048576
      | 'G' => some 1073741824
      | _ => none
    match text.getLast? with
    | none => fail "invalid null argument to -size"
    | some c =>
      if c.isDigit then return .size 512 (← bound word text)
      else match unit? c with
        | some unit => return .size unit (← bound word text.dropLast)
        | none => throw (octets "invalid -size type \x60" ++ [c, '\''])
  | "-perm" =>
    let text ← value word
    let (sign, rest) := match text with
      | '-' :: rest => ('-', rest)
      | '/' :: rest => ('/', rest)
      | rest => ('=', rest)
    match Tool.ModeChange.parse? rest with
    | some changes => return .mode sign (Tool.ModeChange.applyAll false 0 0 changes)
    | none => throw (octets "invalid mode " ++ inQuotes text)
  | "-links" => return .links (← bound word (← value word))
  | "-mtime" | "-atime" | "-ctime" | "-mmin" | "-amin" | "-cmin" =>
    return .age (← bound word (← value word))
  | "-newer" | "-anewer" | "-cnewer" =>
    let _ ← value word
    return .always false
  | "-user" | "-group" => return .always ((← value word) = octets "root")
  | "-readable" => return .allows Disk.ownerRead
  | "-writable" => return .allows Disk.ownerWrite
  | "-executable" => return .allows Disk.ownerRun
  | "-print" =>
    rule fun r => { r with acts := true }
    return .print '\n'
  | "-print0" =>
    rule fun r => { r with acts := true }
    return .print '\x00'
  | "-printf" =>
    rule fun r => { r with acts := true }
    return .printf (← value word)
  | "-exec" => command word false
  | "-execdir" => command word true
  | "-delete" =>
    rule fun r => { r with acts := true, isDeepFirst := true }
    return .delete
  | "-prune" => return .prune
  | "-quit" => return .quit
  | "-maxdepth" =>
    let n ← limit word
    rule fun r => { r with most := n }
    return .always true
  | "-mindepth" =>
    let n ← limit word
    rule fun r => { r with least := n }
    return .always true
  | "-depth" | "-d" =>
    rule fun r => { r with isDeepFirst := true }
    return .always true
  | "-follow" =>
    rule fun r => { r with follows := true }
    return .always true
  | "-xdev" | "-mount" | "-noleaf" | "-daystart" | "-warn" | "-nowarn" => return .always true
  | _ => throw (octets "unknown predicate \x60" ++ word ++ ['\''])

def isBinary (word : Octets) : Bool := String.ofList word ∈ ["-o", "-or", "-a", "-and", ","]

mutual

/-- Alternatives separated by commas: the last one counts. -/
def sequence : Nat → Parse Expr
  | 0 => fail "expression too long"
  | fuel + 1 => do
    let first ← alternatives fuel
    moreSequence fuel first

def moreSequence : Nat → Expr → Parse Expr
  | 0, e => return e
  | fuel + 1, e => do
    if (← peek) = some [','] then
      skip
      let next ← alternatives fuel
      moreSequence fuel (.list e next)
    else return e

def alternatives : Nat → Parse Expr
  | 0 => fail "expression too long"
  | fuel + 1 => do
    let first ← conjunction fuel
    moreAlternatives fuel first

def moreAlternatives : Nat → Expr → Parse Expr
  | 0, e => return e
  | fuel + 1, e => do
    match ← peek with
    | some word =>
      if String.ofList word ∈ ["-o", "-or"] then
        skip
        if (← peek).isNone then throw (octets "expected an expression after '" ++ word ++ ['\''])
        let next ← conjunction fuel
        moreAlternatives fuel (.or e next)
      else return e
    | none => return e

def conjunction : Nat → Parse Expr
  | 0 => fail "expression too long"
  | fuel + 1 => do
    let first ← negation fuel
    moreConjunction fuel first

def moreConjunction : Nat → Expr → Parse Expr
  | 0, e => return e
  | fuel + 1, e => do
    match ← peek with
    | none => return e
    | some word =>
      if String.ofList word ∈ ["-o", "-or", ",", ")"] then return e
      else
        if String.ofList word ∈ ["-a", "-and"] then
          skip
          if (← peek).isNone then throw (octets "expected an expression after '" ++ word ++ ['\''])
        let next ← negation fuel
        moreConjunction fuel (.and e next)

def negation : Nat → Parse Expr
  | 0 => fail "expression too long"
  | fuel + 1 => do
    match ← peek with
    | none => fail "expected an expression"
    | some word =>
      skip
      if String.ofList word ∈ ["!", "-not"] then
        if (← peek).isNone then throw (octets "expected an expression after '" ++ word ++ ['\''])
        return .not (← negation fuel)
      else if word = ['('] then
        if (← peek).isNone then
          fail ("invalid expression; expected to find a ')' but didn't see one. " ++
            "Perhaps you need an extra predicate after '('")
        let inner ← sequence fuel
        if (← peek) ≠ some [')'] then
          fail "invalid expression; I was expecting to find a ')' somewhere but did not see one."
        skip
        return inner
      else if isBinary word then
        throw (octets "invalid expression; you have used a binary operator '" ++ word ++
          octets "' with nothing before it.")
      else if word.head? ≠ some '-' then
        throw (octets "paths must precede expression: \x60" ++ word ++ ['\''])
      else primary word

end

structure Walk where
  paths : List Octets
  rules : Rules
  expr : Expr

def read (args : List Octets) : Except Octets Walk := do
  let flags := args.takeWhile fun a => a ∈ [octets "-H", octets "-L", octets "-P"]
  let args := args.drop flags.length
  let isPath (a : Octets) : Bool :=
    !(a.head? = some '-' && a.length > 1) && a ∉ [['('], ['!']]
  let paths := args.takeWhile isPath
  let words := args.drop paths.length
  let rules : Rules := { follows := flags.getLast? = some (octets "-L") }
  let (e, (rest, rules)) ←
    if words = [] then pure (.always true, ([], rules)) else (sequence (8 * words.length + 8)).run (words, rules)
  match rest with
  | [] =>
    let expr := if rules.acts then e else .and e (.print '\n')
    return ⟨if paths = [] then [['.']] else paths, rules, expr⟩
  | _ => throw (octets "invalid expression; you have too many ')'")

/-! Walking -/

structure Spot where
  path : Octets
  /-- The path where the walk began. -/
  start : Octets
  depth : Nat
  node : Node

structure Progress where
  status : Nat := 0
  /-- The files of the commands for many of them, the last first. -/
  batches : List (Nat × List Octets × List Octets) := []
  isPruned : Bool := false
  isOver : Bool := false

abbrev Walking := StateT Progress Act

def kindLetter : Node → Char
  | .file .. => 'f'
  | .dir .. => 'd'
  | .link _ => 'l'
  | .special .fifo => 'p'
  | .special .socket => 's'
  | .special .nullDevice => 'c'

def fact (s : Spot) : Char → Octets
  | 'p' => s.path
  | 'f' => Tool.baseName s.path []
  | 'h' =>
    if s.path.contains '/' then (s.path.reverse.dropWhile (· ≠ '/')).tail.reverse else ['.']
  | 'P' => (s.path.drop s.start.length).dropWhile (· = '/')
  | 'H' => s.start
  | 'd' => digits s.depth
  | 's' => digits (Tool.sizeOf (some s.node))
  | 'y' | 'Y' => [kindLetter s.node]
  | 'm' => inBase 8 (Tool.modeOf s.node)
  | 'M' => Tool.modeText s.node
  | 'l' => match s.node with
    | .link target => .ofBytes target
    | _ => []
  | 'n' => ['1']
  | 'u' | 'g' => octets "root"
  | 'U' | 'G' => ['0']
  | c => ['%', c]

def filled (s : Spot) : Octets → Octets
  | '%' :: '%' :: cs => '%' :: filled s cs
  | '%' :: c :: cs => fact s c ++ filled s cs
  | '\\' :: c :: cs =>
    (match c with
      | 'n' => ['\n']
      | 't' => ['\t']
      | '0' => ['\x00']
      | '\\' => ['\\']
      | c => ['\\', c]) ++ filled s cs
  | c :: cs => c :: filled s cs
  | [] => []

def placed (path : Octets) (word : Octets) : Octets := go (word.length + 1) word
where
  go : Nat → Octets → Octets
    | 0, cs => cs
    | fuel + 1, '\x7b' :: '\x7d' :: cs => path ++ go fuel cs
    | fuel + 1, c :: cs => c :: go fuel cs
    | _, [] => []

def doesMatch (foldsCase : Bool) (pattern text : Octets) : Bool :=
  let fold (cs : Octets) := if foldsCase then cs.map Char.toLower else cs
  Glob.doesMatch false (Glyphs.ofText false (fold pattern)).glob (fold text)

/-- Runs a command in a directory and gives its status. -/
abbrev Start := Option Octets → List Octets → Act Nat

/-- Whether an expression holds for a file; what it does is done. -/
def holds (start : Start) (s : Spot) : Expr → Walking Bool
  | .always b => return b
  | .name foldsCase pattern => return doesMatch foldsCase pattern (Tool.baseName s.path [])
  | .path foldsCase pattern => return doesMatch foldsCase pattern s.path
  | .matching r style =>
    let cs := s.path.toArray
    return (Regex.matchAt style cs (100 * (cs.size + 100)) r 0 [] fun j gs =>
      if j = cs.size then some (j, gs) else none).isSome
  | .kind letters => return letters.contains (kindLetter s.node)
  | .isEmpty => return (match s.node with
      | .file _ data => data.isEmpty
      | .dir _ es => es.isEmpty
      | _ => false)
  | .size unit b => return b.has ((Tool.sizeOf (some s.node) + unit - 1) / unit)
  | .mode sign bits =>
    let mode := Tool.modeOf s.node
    return if sign = '-' then mode &&& bits = bits
      else if sign = '/' then bits = 0 || mode &&& bits ≠ 0
      else mode = bits
  | .links b => return b.has 1
  | .age b => return b.has 0
  | .allows bits => return (match s.node with
      | .file mode _ => mode &&& bits ≠ 0
      | _ => true)
  | .print ending => do
    writeTo 1 (s.path ++ [ending])
    return true
  | .printf format => do
    writeTo 1 (filled s format)
    return true
  | .exec inPlace words => do
    let name := Tool.baseName s.path []
    let path := if inPlace then ['.', '/'] ++ name else s.path
    let dir := if inPlace then some (fact s 'h') else none
    let status ← start dir (words.map (placed path))
    return status = 0
  | .execMany number words => do
    modify fun p =>
      let before := ((assoc? number p.batches).map (·.2)).getD []
      { p with batches := assocSet number (words, s.path :: before) p.batches }
    return true
  | .delete => do
    let sh ← getThe Shell
    match sh.disk.lstat s.path.toBytes with
    | .ok (.dir _ (_ :: _)) =>
      writeTo 2 (octets "find: cannot delete " ++ inShellQuotes s.path ++
        octets ": Directory not empty\n")
      modify fun p => { p with status := 1 }
      return false
    | _ =>
      match if s.path = ['.'] then .ok sh.disk else sh.disk.remove s.path.toBytes with
      | .ok d =>
        set (sh.setDisk d)
        return true
      | .error e =>
        writeTo 2 (octets "find: cannot delete " ++ inShellQuotes s.path ++ octets (": " ++ e.reason) ++
          ['\n'])
        modify fun p => { p with status := 1 }
        return false
  | .prune => do
    modify fun p => { p with isPruned := true }
    return true
  | .quit => do
    modify fun p => { p with isOver := true }
    return true
  | .not e => return !(← holds start s e)
  | .and a b => do
    if ← holds start s a then
      if (← get).isOver then return false else holds start s b
    else return false
  | .or a b => do
    if ← holds start s a then return true
    else if (← get).isOver then return false
    else holds start s b
  | .list a b => do
    let _ ← holds start s a
    if (← get).isOver then return false else holds start s b

mutual

def visit (start : Start) (w : Walk) : Nat → Octets → Octets → Nat → Walking Unit
  | 0, _, _, _ => return ()
  | fuel + 1, origin, path, depth => do
    if (← get).isOver then return ()
    let sh ← getThe Shell
    let d := sh.disk
    let found := if w.rules.follows then (d.stat path.toBytes).toOption <|>
        (d.lstat path.toBytes).toOption else (d.lstat path.toBytes).toOption
    match found with
    | none =>
      writeTo 2 (octets "find: " ++ inShellQuotes path ++ octets ": No such file or directory\n")
      modify fun p => { p with status := 1 }
    | some node =>
      let spot : Spot := ⟨path, origin, depth, node⟩
      let isShown := depth ≥ w.rules.least
      modify fun p => { p with isPruned := false }
      if isShown ∧ !w.rules.isDeepFirst then
        let _ ← holds start spot w.expr
      let isPruned := (← get).isPruned && !w.rules.isDeepFirst
      if node.isDir ∧ !isPruned ∧ depth < w.rules.most then
        visitAll start w fuel origin depth ((Tool.namesIn d path).map (Tool.below path))
      if isShown ∧ w.rules.isDeepFirst ∧ !(← get).isOver then
        let _ ← holds start spot w.expr

def visitAll (start : Start) (w : Walk) : Nat → Octets → Nat → List Octets → Walking Unit
  | 0, _, _, _ => return ()
  | _, _, _, [] => return ()
  | fuel + 1, origin, depth, path :: paths => do
    visit start w fuel origin path (depth + 1)
    visitAll start w fuel origin depth paths

end

def walkLimit : Nat := 100000

def run (start : Start) (args : List Octets) : Act Nat := do
  match read args with
  | .error reason =>
    writeTo 2 (octets "find: " ++ reason ++ ['\n'])
    return 1
  | .ok w =>
    let all : Walking Unit := do
      for path in w.paths do
        visit start w walkLimit path path 0
      for (_, words, paths) in (← get).batches do
        let status ← start none (words ++ paths.reverse)
        if status ≠ 0 then modify fun p => { p with status := 1 }
    let (_, p) ← all.run {}
    return p.status

end Depot.Host.Finding
