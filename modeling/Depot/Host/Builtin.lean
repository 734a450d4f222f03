import Depot.Host.Condition
import Depot.Host.Expansion
import Depot.Host.Format

/-! The commands that a shell carries out itself, apart from those that run others. -/

namespace Depot.Host

open Files

abbrev Builtin := List Octets → Act Nat

namespace Builtin

def say (text : Octets) : Act Nat := do
  if ← tryWrite 1 text then return 0
  else
    let name := (← get).builtin.getD []
    complain (name ++ octets ": I/O error")
    return 1

def sayLine (text : Octets) : Act Nat := say (text ++ ['\n'])

def number (arg : Octets) : Act Nat :=
  match integer? arg with
  | some n => if n < 0 ∨ n > 2147483647 then illegal else return n.toNat
  | none => illegal
where
  illegal : Act Nat := failWith (octets "Illegal number: " ++ arg)

def quoted (cs : Octets) : Octets := go (cs.length + 1) cs
where
  go : Nat → Octets → Octets
    | 0, _ => []
    | fuel + 1, cs =>
      let plain := cs.takeWhile (· ≠ '\'')
      let rest := cs.drop plain.length
      let quotes := rest.takeWhile (· = '\'')
      let rest := rest.drop quotes.length
      let first := if plain ≠ [] ∨ quotes = [] then '\'' :: plain ++ ['\''] else []
      let second := if quotes = [] then [] else '"' :: quotes ++ ['"']
      first ++ second ++ if rest = [] then [] else go fuel rest

/-- The options at the start of arguments, with the values of those that take one, and the rest. -/
def options (allowed valued : List Char) : Nat → List Octets → Act (List (Char × Octets) × List Octets)
  | 0, args => return ([], args)
  | fuel + 1, args =>
    match args with
    | ['-', '-'] :: rest => return ([], rest)
    | ('-' :: c :: cs) :: rest => do
      let more (found : Char × Octets) (args : List Octets) :
          Act (List (Char × Octets) × List Octets) := do
        let (os, rest) ← options allowed valued fuel args
        return (found :: os, rest)
      if valued.contains c then
        match cs, rest with
        | _ :: _, _ => more (c, cs) rest
        | [], value :: rest => more (c, value) rest
        | [], [] => failWith (octets "No arg for -" ++ c :: octets " option")
      else if allowed.contains c then
        more (c, []) (if cs = [] then rest else ('-' :: cs) :: rest)
      else failWith (octets "Illegal option -" ++ [c])
    | args => return ([], args)

def optionsOf (allowed valued : String) (args : List Octets) :
    Act (List Char × List (Char × Octets) × List Octets) := do
  let fuel := (args.map List.length).foldl (· + ·) 1
  let (os, rest) ← options allowed.toList valued.toList fuel args
  return (os.map (·.1), os, rest)

def echo : Builtin := fun args => do
  let (hasLine, words) := match args with
    | ['-', 'n'] :: rest => (false, rest)
    | rest => (true, rest)
  let (text, goesOn) := echoed .shell words
  say (text ++ if hasLine ∧ goesOn then ['\n'] else [])

def print : Builtin := fun args => do
  let (_, _, args) ← optionsOf "" "" args
  match args with
  | [] => failWith (octets "usage: printf format [arg ...]")
  | format :: args =>
    let (writes, code) := printed .shell format args
    for (isComplaint, text) in writes do
      if isComplaint then complain text
    let out := writes.flatMap fun w => if w.1 then [] else w.2
    let status ← say out
    if code = 2 then
      setStatus 2
      throw .fault
    return if status = 0 then code else status

/-! Directories -/

/-- The name of a directory, given by a path, without `.` and `..`. -/
def cleanPath (start path : Octets) : Octets :=
  let parts := splitAtSep '/' (if path.head? = some '/' then path else start ++ '/' :: path)
  let names := parts.foldl (fun names part =>
    if part = [] ∨ part = ['.'] then names
    else if part = ['.', '.'] then names.tail
    else part :: names) []
  '/' :: joinWith ['/'] names.reverse

def physicalName (sh : Shell) : Octets := .ofBytes (Disk.pathOf sh.cwd)

def goTo (isPhysical : Bool) (path : Octets) : Act Bool := do
  let sh ← get
  let name : Octets := if isPhysical then path else cleanPath sh.cwdName path
  match sh.disk.locate name.toBytes with
  | .ok (place, .dir ..) =>
    let name := if isPhysical then Octets.ofBytes (Disk.pathOf place) else name
    modify fun sh => { sh with cwd := place, cwdName := name }
    changeVar (octets "OLDPWD") fun v => { v with value := some sh.cwdName, isExported := true }
    changeVar (octets "PWD") fun v => { v with value := some name, isExported := true }
    return true
  | _ => return false

def pathsOf (sh : Shell) (dest : Octets) : List (Bool × Octets) :=
  let isFixed := dest.head? = some '/' || dest = ['.'] || dest = ['.', '.'] ||
    ['.', '/'].isPrefixOf dest || ['.', '.', '/'].isPrefixOf dest
  match if isFixed then none else sh.var? (octets "CDPATH") with
  | none => []
  | some path => (splitAtSep ':' path).map fun dir =>
    if dir = [] then (false, dest) else (true, dir ++ '/' :: dest)

def changeDirectory : Builtin := fun args => do
  let (letters, _, args) ← optionsOf "LP" "" args
  let sh ← get
  let isPhysical := letters.getLast? = some 'P'
  let (dest, isShown) := match args with
    | [] => (sh.var "HOME", false)
    | ['-'] :: _ => (sh.var "OLDPWD", true)
    | dest :: _ => (dest, false)
  let found := (pathsOf sh dest).find? fun p => sh.disk.isDirectory (Octets.toBytes p.2)
  let (isListed, path) := found.getD (false, if dest = [] then ['.'] else dest)
  if ← goTo isPhysical path then
    if isShown ∨ isListed then sayLine (← get).cwdName else return 0
  else failWith (octets "can't cd to " ++ dest)

def showDirectory : Builtin := fun args => do
  let (letters, _, _) ← optionsOf "LP" "" args
  let sh ← get
  sayLine (if letters.getLast? = some 'P' then physicalName sh else sh.cwdName)

/-! Variables -/

def sortedVars (sh : Shell) : List (Octets × Variable) :=
  sh.vars.mergeSort fun a b => !decide (b.1 < a.1)

def showVars (start : String) (p : Variable → Bool) : Act Nat := do
  let sh ← get
  let lines := (sortedVars sh).filterMap fun (name, v) =>
    if !p v then none
    else match v.value with
      | some value => some (octets start ++ name ++ '=' :: quoted value ++ ['\n'])
      | none => if start = "" then none else some (octets start ++ name ++ ['\n'])
  say lines.flatten

def settingOf (arg : Octets) : Octets × Option Octets :=
  let name := arg.takeWhile (· ≠ '=')
  (name, if name.length < arg.length then some (arg.drop (name.length + 1)) else none)

def declare (start : String) (isMarked : Variable → Bool) (mark : Variable → Variable) : Builtin :=
  fun args => do
    let (letters, _, args) ← optionsOf "p" "" args
    if letters ≠ [] ∨ args = [] then showVars start isMarked
    else
      for arg in args do
        let (name, value?) := settingOf arg
        demandName name
        match value? with
        | some value => changeVar name fun v => mark { v with value := some value }
        | none => modify fun sh =>
          { sh with vars := assocSet name (mark ((assoc? name sh.vars).getD {})) sh.vars }
      return 0

def declareLocal : Builtin := fun args => do
  if (← get).frames = [] ∨ !(← get).isInFunction then failWith (octets "not in a function")
  for arg in args do
    let (name, value?) := settingOf arg
    demandName name
    keepVar name
    match value? with
    | some value => setVar name value
    | none => modify fun sh =>
      { sh with vars := assocSet name ((assoc? name sh.vars).getD {}) sh.vars }
  return 0

def unset : Builtin := fun args => do
  let (letters, _, args) ← optionsOf "vf" "" args
  for name in args do
    if letters.contains 'f' then
      modify fun sh => { sh with functions := assocErase name sh.functions }
    else
      demandName name
      unsetVar name
  return 0

/-- The characters of a line, and what is left of them to read: a backslash quotes a character, and
joins lines. -/
def lineGlyphs (isRaw : Bool) : Octets → Glyphs × Nat × Bool
  | [] => ([], 0, false)
  | '\n' :: _ => ([], 1, true)
  | '\\' :: c :: cs =>
    if isRaw then
      let (gs, n, isWhole) := lineGlyphs isRaw (c :: cs)
      (.char '\\' false :: gs, n + 1, isWhole)
    else
      let (gs, n, isWhole) := lineGlyphs isRaw cs
      (if c = '\n' then gs else .char c true :: gs, n + 2, isWhole)
  | c :: cs =>
    let (gs, n, isWhole) := lineGlyphs isRaw cs
    let isLost := c = '\x00' || (c = '\\' && !isRaw && cs = [])
    (if isLost then gs else .char c false :: gs, n + 1, isWhole)

def readLine : Builtin := fun args => do
  let (letters, _, names) ← optionsOf "r" "p" args
  if names = [] then failWith (octets "arg count")
  let sh ← get
  let input := match sh.channelOf 0 with
    | some i => (sh.machine.peek i 65536).toOption.getD []
    | none => []
  let (gs, used, isWhole) := lineGlyphs (letters.contains 'r') input
  if let some i := sh.channelOf 0 then changeMachine fun m => m.consume i used
  let fields := lineFields ⟨sh.separators, false⟩ names.length gs
  for (name, i) in names.zipIdx do
    setVar name (Glyphs.text (fields.getD i []))
  return if isWhole then 0 else 1

/-- The next option of some words, and how far it leaves them: the rest of its word, and the words
passed. -/
inductive NextOption where
  | done (passed : Nat)
  | found (letter : Char) (value : Option Octets) (rest : Octets) (passed : Nat)
  | unknown (letter : Char) (rest : Octets) (passed : Nat)
  | noValue (letter : Char) (passed : Nat)

def nextOption (allowed : Octets) (words : List Octets) (index : Nat) (rest : Octets) : NextOption :=
  let fromWord (c : Char) (cs : Octets) (passed : Nat) : NextOption :=
    match allowed.dropWhile (· ≠ c) with
    | [] => .unknown c cs passed
    | _ :: mark =>
      if c = ':' then .unknown c cs passed
      else if mark.head? = some ':' then
        match cs, words[passed - 1]? with
        | _ :: _, _ => .found c (some cs) [] passed
        | [], some value => .found c (some value) [] (passed + 1)
        | [], none => .noValue c passed
      else .found c none cs passed
  match rest with
  | c :: cs => fromWord c cs index
  | [] =>
    match words[index - 1]? with
    | some ['-', '-'] => .done (index + 1)
    | some ('-' :: c :: cs) => fromWord c cs (index + 1)
    | _ => .done index

def nextOptionOf : Builtin := fun args => do
  match args with
  | allowed :: name :: words => do
    let sh ← get
    let words := if words = [] then sh.args else words
    let index := (naturalOf (sh.var "OPTIND")).max 1
    let isQuiet := allowed.head? = some ':'
    let letters := if isQuiet then allowed.tail else allowed
    let finish (letter : Char) (rest : Octets) (passed status : Nat) : Act Nat := do
      setVar (octets "OPTIND") (digits passed)
      setVar name [letter]
      modify fun sh => { sh with optionRest := rest }
      return status
    match nextOption letters words index sh.optionRest with
    | .done passed => finish '?' [] passed 1
    | .found letter value rest passed =>
      setVar (octets "OPTARG") (value.getD [])
      finish letter rest passed 0
    | .unknown letter rest passed =>
      if isQuiet then setVar (octets "OPTARG") [letter]
      else
        writeTo 2 (octets "Illegal option -" ++ [letter, '\n'])
        unsetVar (octets "OPTARG")
      finish '?' rest passed 0
    | .noValue letter passed =>
      if isQuiet then
        setVar (octets "OPTARG") [letter]
        finish ':' [] passed 0
      else
        writeTo 2 (octets "No arg for -" ++ letter :: octets " option\n")
        unsetVar (octets "OPTARG")
        finish '?' [] passed 0
  | _ => failWith (octets "Usage: getopts optstring var [arg...]")

/-! Options and arguments of the shell -/

def optionNames : List (String × Char) :=
  [("errexit", 'e'), ("noglob", 'f'), ("ignoreeof", 'I'), ("interactive", 'i'), ("monitor", 'm'),
    ("noexec", 'n'), ("stdin", 's'), ("xtrace", 'x'), ("verbose", 'v'), ("vi", 'V'),
    ("emacs", 'E'), ("noclobber", 'C'), ("allexport", 'a'), ("notify", 'b'), ("nounset", 'u'),
    ("privileged", 'p'), ("nolog", 'N'), ("debug", 'D')]

def setOption (letter : Char) (isOn : Bool) : Act Unit := modify fun sh =>
  let others := sh.options.filter (· ≠ letter)
  { sh with options := if isOn then letter :: others else others }

def optionLetters : List Char := "efIimnsxvVECabup".toList

def switch (isOn : Bool) : Octets → Act Unit
  | [] => return ()
  | c :: cs => do
    if optionLetters.contains c then
      setOption c isOn
      switch isOn cs
    else failWith (octets "Illegal option " ++ [if isOn then '-' else '+', c])

def showOptions (isOn : Bool) : Act Nat := do
  let sh ← get
  let line (o : String × Char) : Octets :=
    let isSet := sh.option o.2
    if isOn then
      octets o.1 ++ List.replicate (16 - o.1.length) ' ' ++ octets (if isSet then "on\n" else "off\n")
    else octets (if isSet then "set -o " else "set +o ") ++ octets o.1 ++ ['\n']
  say ((if isOn then octets "Current option settings\n" else []) ++ optionNames.flatMap line)

def settings : List Octets → Act Nat
  | [] => return 0
  | [['-', 'o']] => showOptions true
  | [['+', 'o']] => showOptions false
  | (sign :: letters) :: rest => do
    let isOn := sign = '-'
    if (sign = '-' ∨ sign = '+') ∧ letters = ['o'] then
      match rest with
      | name :: rest =>
        match optionNames.find? fun o => octets o.1 = name with
        | some o =>
          setOption o.2 isOn
          settings rest
        | none => failWith (octets "Illegal option " ++ sign :: octets "o " ++ name)
      | [] => return 0
    else if sign = '-' ∧ letters = ['-'] then
      modify fun sh => { sh with args := rest, optionRest := [] }
      return 0
    else if sign = '-' ∧ letters = [] then
      setOption 'x' false
      setOption 'v' false
      if rest ≠ [] then modify fun sh => { sh with args := rest }
      return 0
    else if (sign = '-' ∨ sign = '+') ∧ letters ≠ [] then
      switch isOn letters
      settings rest
    else
      modify fun sh => { sh with args := (sign :: letters) :: rest }
      return 0
  | [] :: rest => do
    modify fun sh => { sh with args := [] :: rest }
    return 0

def set : Builtin := fun args => if args = [] then showVars "" fun _ => true else settings args

def shift : Builtin := fun args => do
  let n ← match args with
    | [] => pure 1
    | arg :: _ => number arg
  let sh ← get
  if n > sh.args.length then failWith (octets "can't shift that many")
  modify fun sh => { sh with args := sh.args.drop n, optionRest := [] }
  return 0

def octalMode (n : Nat) : Octets :=
  let ds := inBase 8 n
  List.replicate (4 - ds.length) '0' ++ ds

def symbolicMode (n : Nat) : Octets :=
  let part (who : Char) (bits : Nat) : Octets :=
    [who, '='] ++ (if bits &&& 4 ≠ 0 then ['r'] else []) ++ (if bits &&& 2 ≠ 0 then ['w'] else []) ++
      (if bits &&& 1 ≠ 0 then ['x'] else [])
  part 'u' (n / 64 % 8) ++ ',' :: part 'g' (n / 8 % 8) ++ ',' :: part 'o' (n % 8)

def clauseMode? (old : Nat) (clause : Octets) : Option Nat :=
  let who := clause.takeWhile fun c => c ∈ ['u', 'g', 'o', 'a']
  match clause.drop who.length with
  | op :: letters =>
    if op ∉ ['+', '-', '='] ∨ letters.any fun c => c ∉ ['r', 'w', 'x', 'X', 's', 't'] then none
    else
      let bit (c : Char) : Nat := if c = 'r' then 4 else if c = 'w' then 2
        else if c = 'x' then 1 else if c = 'X' ∧ old &&& 0o111 ≠ 0 then 1 else 0
      let bits := letters.foldl (fun n c => n ||| bit c) 0
      let isAll := who = [] || who.contains 'a'
      let shifts := (if isAll || who.contains 'u' then [64] else []) ++
        (if isAll || who.contains 'g' then [8] else []) ++
        (if isAll || who.contains 'o' then [1] else [])
      let mask := shifts.foldl (fun n s => n ||| bits * s) 0
      let whole := shifts.foldl (fun n s => n ||| 7 * s) 0
      some (if op = '+' then old ||| mask
        else if op = '-' then old - (old &&& mask)
        else old - (old &&& whole) ||| mask)
  | [] => none

def symbolicMode? (old : Nat) (text : Octets) : Option Nat :=
  (splitAtSep ',' text).foldlM clauseMode? old

def creationMask : Builtin := fun args => do
  let (letters, _, args) ← optionsOf "S" "" args
  let old := (← get).mask
  match args with
  | [] =>
    sayLine (if letters = [] then octalMode old else symbolicMode (0o777 - old))
  | arg :: _ =>
    let mask ← if arg.head?.any Char.isDigit then
        if arg.all isOctal then pure (valueOf 8 arg % 512)
        else failWith (octets "Illegal number: " ++ arg)
      else match symbolicMode? (0o777 - old) arg with
        | some mode => pure (0o777 - mode)
        | none => failWith (octets "Illegal mode: " ++ arg)
    modify fun sh => { sh with mask := mask }
    return 0

/-! Signals -/

def signal? (least : Nat) (text : Octets) : Option Nat :=
  if text ≠ [] ∧ text.all Char.isDigit then
    let n := naturalOf text
    if n < 65 then some n else none
  else
    let names := "EXIT" :: signalNames
    (names.idxOf? (String.ofList (text.map Char.toUpper))).filter fun n => n ≥ least

def setTrap : Builtin := fun args => do
  let (_, _, args) ← optionsOf "" "" args
  match args with
  | [] =>
    let names := "EXIT" :: signalNames
    let sorted := (← get).traps.mergeSort fun a b => a.1 ≤ b.1
    say (sorted.flatMap fun t =>
      octets "trap -- " ++ quoted t.2 ++ ' ' :: octets (names.getD t.1 "") ++ ['\n'])
  | first :: rest =>
    let (action, signals) :=
      if rest = [] ∨ (signal? 0 first).isSome then (none, first :: rest)
      else (if first = ['-'] then none else some first, rest)
    for name in signals do
      match signal? 0 name with
      | none =>
        writeTo 2 (octets "trap: " ++ name ++ octets ": bad trap\n")
        return 1
      | some n => modify fun sh =>
        { sh with
          traps := match action with
            | some text => assocSet n text sh.traps
            | none => assocErase n sh.traps }
    return 0

/-- The processes that can be sent a signal. -/
def doesLive (sh : Shell) (pid : Nat) : Bool :=
  pid = sh.pid || pid = sh.rootPid || pid = sh.parent ||
    sh.jobs.any fun j => j.pid = pid && j.task.isSome

/-- Sends a signal. A command in the background that has not begun ends at once. -/
def send (pid signal : Nat) : Act Unit := modify fun sh =>
  if sh.jobs.any fun j => j.pid = pid then
    { sh with
      jobs := sh.jobs.map fun j =>
        if j.pid = pid ∧ j.task.isSome ∧ !isHarmless signal then
          { j with task := none, status := 128 + signal, signal := some signal }
        else j }
  else if signal = 0 then sh
  else { sh with machine := { sh.machine with signals := sh.machine.signals ++ [(pid, signal)] } }

def killUsage : String :=
  "Usage: kill [-s sigspec | -signum | -sigspec] [pid | job]... or\nkill -l [exitstatus]"

def listSignals (args : List Octets) : Act Nat := do
  match args with
  | [] => say (octets "0\n" ++ signalNames.flatMap fun n => octets n ++ ['\n'])
  | arg :: _ =>
    let n ← number arg
    match if n > 128 then signalNames[n - 129]? else if n = 0 then none else signalNames[n - 1]? with
    | some name => sayLine (octets name)
    | none => failWith (octets "invalid signal number or exit status: " ++ arg)

def sendSignals (signal : Nat) (args : List Octets) : Act Nat := do
  if args = [] then failWith (octets killUsage)
  let mut status := 0
  for arg in args do
    let sh ← get
    let pid ← match arg with
      | '%' :: _ => pure ((sh.jobs.getLast?.map (·.pid)).getD 0)
      | '-' :: rest => number rest
      | arg => number arg
    if doesLive sh pid then send pid signal
    else
      complain (octets "No such process\n")
      status := 1
  return status

def kill : Builtin := fun args => do
  match args with
  | [] => failWith (octets killUsage)
  | ('-' :: name) :: rest =>
    match signal? 1 name with
    | some n => sendSignals n rest
    | none =>
      let (letters, os, rest) ← optionsOf "l" "s" args
      if letters.contains 'l' then listSignals rest
      else match os.getLast? with
        | some (_, name) =>
          match signal? 1 name with
          | some n => sendSignals n rest
          | none => failWith (octets "invalid signal number or name: " ++ name)
        | none => sendSignals 15 rest
  | args => sendSignals 15 args

/-! Other names for commands -/

def setAliases : Builtin := fun args => do
  let shown (a : Octets × Octets) := a.1 ++ '=' :: quoted a.2 ++ ['\n']
  match args with
  | [] => say ((sortPairs (← get).aliases).flatMap shown)
  | args =>
    let mut status := 0
    for arg in args do
      let (name, value?) := settingOf arg
      match value? with
      | some value => modify fun sh => { sh with aliases := assocSet name value sh.aliases }
      | none =>
        match assoc? name (← get).aliases with
        | some value =>
          let _ ← say (shown (name, value))
        | none =>
          writeTo 2 (octets "alias: " ++ name ++ octets " not found\n")
          status := 1
    return status
where
  sortPairs (as : List (Octets × Octets)) : List (Octets × Octets) :=
    as.mergeSort fun a b => !decide (b.1 < a.1)

def dropAliases : Builtin := fun args => do
  let (letters, _, names) ← optionsOf "a" "" args
  if letters ≠ [] then
    modify fun sh => { sh with aliases := [] }
    return 0
  let mut status := 0
  for name in names do
    if (assoc? name (← get).aliases).isSome then
      modify fun sh => { sh with aliases := assocErase name sh.aliases }
    else
      writeTo 2 (octets "unalias: " ++ name ++ octets " not found\n")
      status := 1
  return status

/-! Ways out -/

/-- Leaves loops, or their rounds, as many as there are at most. -/
def leave (stop : Nat → Stop) : Builtin := fun args => do
  let n ← match args with
    | [] => pure 1
    | arg :: _ =>
      let n ← number arg
      if n = 0 then failWith (octets "Illegal number: " ++ arg)
      pure n
  let depth := min n (← get).loopDepth
  if depth = 0 then return 0
  setStatus 0
  throw (stop depth)

def leaveCall : Builtin := fun args => do
  if let arg :: _ := args then
    setStatus (← number arg)
  throw .leaveCall

def exit : Builtin := fun args => do
  if let arg :: _ := args then
    let n ← number arg
    modify fun sh => { sh with savedStatus := some n }
  throw .exit

def test (isBracket : Bool) : Builtin := fun args => do
  if isBracket ∧ args.getLast? ≠ some [']'] then failWith (octets "missing ]")
  match Condition.holds (← get).disk (if isBracket then args.dropLast else args) with
  | .ok doesHold => return if doesHold then 0 else 1
  | .error reason => failWith reason

/-- What a builtin is to the shell. -/
inductive Rank where
  /-- A fault in it ends the shell, and what is set before it stays. -/
  | special
  | regular
  deriving DecidableEq

inductive Runner where
  | eval | source | exec | command | wait | describe | hash | job
  deriving DecidableEq

/-- A command that the shell carries out itself. -/
inductive Found where
  | plain (act : Builtin)
  | runner (r : Runner)

def find? (name : Octets) : Option (Rank × Found) :=
  let special (b : Builtin) := some (Rank.special, Found.plain b)
  let regular (b : Builtin) := some (Rank.regular, Found.plain b)
  match String.ofList name with
  | ":" => special fun _ => return 0
  | "break" => special (leave .leaveLoop)
  | "continue" => special (leave .nextRound)
  | "return" => special leaveCall
  | "exit" => special exit
  | "export" =>
    special (declare "export " (·.isExported) fun v => { v with isExported := true })
  | "readonly" => special (declare "readonly " (·.isFixed) fun v => { v with isFixed := true })
  | "local" => special declareLocal
  | "set" => special set
  | "shift" => special shift
  | "times" => special fun _ => say (octets "0m0.000000s 0m0.000000s\n0m0.000000s 0m0.000000s\n")
  | "trap" => special setTrap
  | "unset" => special unset
  | "eval" => some (.special, .runner .eval)
  | "." => some (.special, .runner .source)
  | "exec" => some (.special, .runner .exec)
  | "command" => some (.regular, .runner .command)
  | "wait" => some (.regular, .runner .wait)
  | "type" => some (.regular, .runner .describe)
  | "hash" => some (.regular, .runner .hash)
  | "jobs" | "fg" | "bg" => some (.regular, .runner .job)
  | "true" => regular fun _ => return 0
  | "false" => regular fun _ => return 1
  | "echo" => regular echo
  | "printf" => regular print
  | "test" => regular (test false)
  | "[" => regular (test true)
  | "cd" | "chdir" => regular changeDirectory
  | "pwd" => regular showDirectory
  | "read" => regular readLine
  | "getopts" => regular nextOptionOf
  | "umask" => regular creationMask
  | "kill" => regular kill
  | "alias" => regular setAliases
  | "unalias" => regular dropAliases
  | "ulimit" => regular fun _ => say (octets "unlimited\n")
  | _ => none

/-- Settings among the arguments of these keep their values whole. -/
def takesSettings (name : Octets) : Bool :=
  [octets "export", octets "readonly", octets "local", octets "alias"].contains name

end Builtin

end Depot.Host
