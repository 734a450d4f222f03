import Depot.Host.Builtin
import Depot.Host.Finding
import Depot.Host.Processes

/-! Starting programs: shells, tools, and programs that start others. -/

namespace Depot.Host

open Files

namespace Interpreter

/-! Shells -/

structure Start where
  text : Option Unit := none
  isInput : Bool := false
  rest : List Octets := []

/-- Switches options by their letters; says whether the text to run is among the arguments. -/
def startLetters (isOn : Bool) : Octets → List Octets → Bool → Act (Bool × List Octets)
  | [], args, isText => return (isText, args)
  | 'c' :: cs, args, _ => startLetters isOn cs args true
  | 'l' :: cs, args, isText => startLetters isOn cs args isText
  | 'o' :: cs, args, isText => do
    match args with
    | [] =>
      let _ ← Builtin.showOptions isOn
      startLetters isOn cs [] isText
    | name :: rest =>
      let _ ← Builtin.settings [[if isOn then '-' else '+', 'o'], name]
      startLetters isOn cs rest isText
  | c :: cs, args, isText => do
    Builtin.switch isOn [c]
    startLetters isOn cs args isText

def startOptions : Nat → Bool → List Octets → Act (Bool × List Octets)
  | 0, isText, args => return (isText, args)
  | fuel + 1, isText, args =>
    match args with
    | ['-'] :: rest | ['-', '-'] :: rest => return (isText, rest)
    | (sign :: letters) :: rest => do
      if sign = '-' ∨ sign = '+' then
        let (isText, rest) ← startLetters (sign = '-') letters rest isText
        startOptions fuel isText rest
      else return (isText, args)
    | args => return (isText, args)

def shell (recur : Runner) (name : Octets) (args : List Octets) : Act Nat := do
  let sh ← get
  let exported := sh.environment
  let vars := exported.map fun v => (v.1, ({ value := some v.2, isExported := true } : Variable))
  let physical := Octets.ofBytes (Disk.pathOf sh.cwd)
  let named := ((assoc? (octets "PWD") exported).filter fun path =>
    path.head? = some '/' && (match sh.disk.locate path.toBytes with
      | .ok (place, _) => place = sh.cwd
      | .error _ => false)).getD physical
  let given (name : String) (value : Octets) (vars : List (Octets × Variable)) :=
    if (assoc? (octets name) vars).isSome then vars
    else assocSet (octets name) { value := some value } vars
  let vars := assocErase (octets "IFS") vars
  let vars := given "PATH" Program.standardDirs (given "PS4" (octets "+ ") (given "PS2" (octets "> ")
    (given "PS1" (octets "# ") (given "OPTIND" ['1'] (given "IFS" [' ', '\t', '\n'] vars)))))
  let vars := assocSet (octets "PPID") { value := some (digits sh.parent) } vars
  let vars := assocSet (octets "OPTIND") { value := some ['1'] } vars
  let vars := assocSet (octets "PWD") { value := some named, isExported := true } vars
  let traps := sh.traps.filter fun t => t.2 = []
  let p : Process :=
    { pid := sh.pid
      rootPid := sh.pid
      parent := sh.parent
      name := name
      vars := vars
      streams := sh.streams
      cwd := sh.cwd
      cwdName := named
      mask := sh.mask
      traps := traps }
  set ({ toProcess := p, machine := sh.machine } : Shell)
  let (isText, rest) ← startOptions (args.length + 1) false args
  let fromInput : Act Nat := do
    setOption 's' true
    let sh ← get
    let input := match sh.channelOf 0 with
      | some i => (sh.machine.peek i).toOption.getD []
      | none => []
    if let some i := sh.channelOf 0 then changeMachine fun m => m.consume i input.length
    runText recur {} input
  match rest with
  | [] => if isText then failWith (octets "-c requires an argument") else fromInput
  | first :: rest =>
    if isText then
      modify fun sh => { sh with name := rest.headD name, args := rest.tail }
      let status ← runText recur ⟨false, true⟩ first
      return status
    else if (← get).option 's' then
      modify fun sh => { sh with args := first :: rest }
      fromInput
    else
      match (← get).disk.read first.toBytes with
      | .ok data =>
        modify fun sh => { sh with name := first, args := rest }
        runText recur {} (.ofBytes data)
      | .error .isDirectory => return 0
      | .error e =>
        let reason := if e = .notFound ∨ e = .notDirectory then "No such file" else e.reason
        failWith (octets "cannot open " ++ first ++ octets ": " ++ octets reason)
where
  setOption (letter : Char) (isOn : Bool) : Act Unit := Builtin.setOption letter isOn

/-! Programs -/

def tool (work : Work Unit) (name : Octets) (args : List Octets) : Act Nat := do
  let sh ← get
  let input := match sh.channelOf 0 with
    | some i => sh.machine.peek i
    | none => .error .closed
  let canRewind := (sh.channelOf 0).any sh.machine.canRewind
  let call : Call := ⟨name, args, input, canRewind, sh.environment, sh.mask⟩
  let (r, bench) := work call { disk := sh.disk }
  set (sh.setDisk bench.disk)
  if let some i := sh.channelOf 0 then changeMachine fun m => m.consume i bench.used
  for (isError, text) in bench.writes.reverse do
    if isError then writeTo 2 text
    else if !(← tryWrite 1 text) then
      writeTo 2 (name ++ octets ": write error: Bad file descriptor\n")
      return 1
  return match r with
    | .ok () => bench.status
    | .error status => status

/-- What `env` is told: the variables of the program, and its words. -/
def environmentFor : List Octets → List (Octets × Octets) →
    Except Char (List (Octets × Octets) × List Octets)
  | ['-', 'i'] :: args, _ | ['-'] :: args, _ => environmentFor args []
  | ['-', 'u'] :: name :: args, vars => environmentFor args (assocErase name vars)
  | ('-' :: 'u' :: c :: cs) :: args, vars => environmentFor args (assocErase (c :: cs) vars)
  | ['-', '-'] :: args, vars => .ok (settingsOf args vars)
  | ('-' :: c :: _) :: _, _ => .error c
  | args, vars => .ok (settingsOf args vars)
where
  settingsOf : List Octets → List (Octets × Octets) → List (Octets × Octets) × List Octets
    | [], vars => (vars, [])
    | arg :: args, vars =>
      match arg.dropWhile (· ≠ '=') with
      | '=' :: value => settingsOf args (assocSet (arg.takeWhile (· ≠ '=')) value vars)
      | _ => (vars, arg :: args)

def setEnvironment (vars : List (Octets × Octets)) : Act Unit := modify fun sh =>
  { sh with vars := vars.map fun v => (v.1, { value := some v.2, isExported := true }) }

def searchDirs (sh : Shell) : Octets := (sh.var? (octets "PATH")).getD Program.standardDirs

/-- The words of a list of arguments for a program: blanks separate them, quotes keep them whole. -/
def inputWords : Nat → Octets → Bool → Octets → List Octets
  | 0, _, _, _ => []
  | _ + 1, word, isOpen, [] => if isOpen then [word] else []
  | fuel + 1, word, isOpen, c :: cs =>
    if c = ' ' ∨ c = '\t' ∨ c = '\n' then
      (if isOpen then [word] else []) ++ inputWords fuel [] false cs
    else if c = '\'' ∨ c = '"' then
      let inner := cs.takeWhile (· ≠ c)
      inputWords fuel (word ++ inner) true (cs.drop (inner.length + 1))
    else if c = '\\' then
      match cs with
      | d :: cs => inputWords fuel (word ++ [d]) true cs
      | [] => [word]
    else inputWords fuel (word ++ [c]) true cs

structure Arguments where
  most : Option Nat := none
  isByLine : Bool := false
  isByNull : Bool := false
  delimiter : Option Char := none
  mark : Option Octets := none
  skipsEmpty : Bool := false
  isShown : Bool := false

def argumentsFor : Arguments → List Octets → Arguments × List Octets
  | a, ['-', '0'] :: args => argumentsFor { a with isByNull := true } args
  | a, ['-', 'r'] :: args => argumentsFor { a with skipsEmpty := true } args
  | a, ['-', 't'] :: args => argumentsFor { a with isShown := true } args
  | a, ['-', 'n'] :: n :: args => argumentsFor { a with most := some (naturalOf n) } args
  | a, ('-' :: 'n' :: c :: n) :: args =>
    argumentsFor { a with most := some (naturalOf (c :: n)) } args
  | a, ['-', 'L'] :: n :: args =>
    argumentsFor { a with most := some (naturalOf n), isByLine := true } args
  | a, ['-', 'I'] :: mark :: args => argumentsFor { a with mark := some mark } args
  | a, ('-' :: 'I' :: c :: cs) :: args => argumentsFor { a with mark := some (c :: cs) } args
  | a, ['-', 'd'] :: d :: args =>
    let c := match d with
      | ['\\', 'n'] => '\n'
      | ['\\', '0'] => '\x00'
      | ['\\', 't'] => '\t'
      | d => d.headD ' '
    argumentsFor { a with delimiter := some c } args
  | a, ['-', '-'] :: args => (a, args)
  | a, args => (a, args)

def replaceMark (mark text : Octets) : Nat → Octets → Octets
  | 0, cs => cs
  | _ + 1, [] => []
  | fuel + 1, c :: cs =>
    if mark ≠ [] ∧ mark.isPrefixOf (c :: cs) then
      text ++ replaceMark mark text fuel ((c :: cs).drop mark.length)
    else c :: replaceMark mark text fuel cs

def commandsFor (a : Arguments) (program : List Octets) (input : Octets) : List (List Octets) :=
  let isBlank := fun c : Char => c = ' ' || c = '\t'
  let items := match a.delimiter, a.isByNull, a.mark with
    | some d, _, _ => split d
    | none, true, _ => split '\x00'
    | none, false, some _ =>
      ((bareLines input).map fun l => l.dropWhile isBlank).filter (· ≠ [])
    | none, false, none => inputWords (input.length + 1) [] false input
  match a.mark with
  | some mark => items.map fun item => program.map fun word =>
      replaceMark mark item (word.length + 1) word
  | none =>
    if items = [] then if a.skipsEmpty then [] else [program]
    else
      let groups := match a.most with
        | some n => chunks (items.length + 1) (max n 1) items
        | none => [items]
      groups.map fun group => program ++ group
where
  split (d : Char) : List Octets :=
    let parts := splitAtSep d input
    if parts.getLastD [] = [] then parts.dropLast else parts
  chunks : Nat → Nat → List Octets → List (List Octets)
    | 0, _, _ => []
    | _ + 1, _, [] => []
    | fuel + 1, n, items => items.take n :: chunks fuel n (items.drop n)

def locateAll (args : List Octets) : Act Nat := do
  let showsAll := args.head? = some ['-', 'a']
  let names := if showsAll then args.tail else args
  let sh ← get
  let mut isMissing := names.isEmpty
  for name in names do
    let paths := (Program.candidates (searchDirs sh) name).filter fun path =>
      (Program.locate sh.disk [] path).toOption.isSome
    if paths = [] then isMissing := true
    for path in if showsAll then paths else paths.take 1 do
      writeTo 1 (path ++ ['\n'])
  return if isMissing then 1 else 0

def enter (dir : Octets) : Act Unit := modify fun sh =>
  match sh.disk.locate dir.toBytes with
  | .ok (place, _) => { sh with cwd := place }
  | .error _ => sh

mutual

/-- Runs a loaded program in the process at work. -/
def become (recur : Runner) : Nat → Loaded → Act Nat
  | 0, _ => throw (.killed 11)
  | fuel + 1, l => do
    match l.program with
    | .tool work => tool work l.name l.args
    | .shell => shell recur l.name l.args
    | .starter .environment =>
      match environmentFor l.args (← get).environment with
      | .error c =>
        writeTo 2 (l.name ++ octets ": invalid option -- '" ++ [c, '\'', '\n'] ++ octets "Try '" ++
          l.name ++ octets " --help' for more information.\n")
        return 125
      | .ok (vars, []) =>
        writeTo 1 (vars.flatMap fun v => v.1 ++ '=' :: v.2 ++ ['\n'])
        return 0
      | .ok (vars, program :: args) =>
        setEnvironment vars
        start recur fuel l.name program args
    | .starter .limit =>
      match l.args.dropWhile fun a => a.head? = some '-' with
      | _ :: program :: args => start recur fuel l.name program args
      | _ => return 125
    | .starter (.plain _) =>
      match l.args with
      | ['-', 'n'] :: _ :: program :: args => start recur fuel l.name program args
      | program :: args => start recur fuel l.name program args
      | [] => return 0
    | .starter .arguments =>
      let sh ← get
      let input := match sh.channelOf 0 with
        | some i => (sh.machine.peek i).toOption.getD []
        | none => []
      if let some i := sh.channelOf 0 then changeMachine fun m => m.consume i input.length
      let (a, program) := argumentsFor {} l.args
      let program := if program = [] then [octets "echo"] else program
      startAll recur fuel l.name a.isShown (commandsFor a program input) 0
    | .starter .located => locateAll l.args
    | .starter .found =>
      Finding.run (fun dir words => do
        match words with
        | [] => return 0
        | program :: args =>
          let ending ← forked recur do
            if let some dir := dir then enter dir
            start recur fuel l.name program args
          return ending.code) l.args

def startAll (recur : Runner) : Nat → Octets → Bool → List (List Octets) → Nat → Act Nat
  | 0, _, _, _, status => return status
  | _ + 1, _, _, [], status => return status
  | fuel + 1, name, isShown, words :: more, status => do
    if isShown then writeTo 2 (joinWith [' '] words ++ ['\n'])
    match words with
    | [] => startAll recur fuel name isShown more status
    | program :: args =>
      let null ← openChannel .void
      let ending ← withStream 0 null (forked recur (start recur fuel name program args))
      match ending with
      | .status 0 => startAll recur fuel name isShown more status
      | .status 255 =>
        writeTo 2 (name ++ octets ": " ++ program ++ octets ": exited with status 255; aborting\n")
        return 124
      | .status 127 => return 127
      | .status 126 => return 126
      | .status _ => startAll recur fuel name isShown more 123
      | .signal n =>
        writeTo 2 (name ++ octets ": " ++ program ++ octets ": terminated by signal " ++ digits n ++
          ['\n'])
        return 125

def start (recur : Runner) : Nat → Octets → Octets → List Octets → Act Nat
  | 0, _, _, _ => throw (.killed 11)
  | fuel + 1, starter, program, args => do
    let sh ← get
    match Program.find sh.disk (searchDirs sh) program args with
    | .ok l => become recur fuel l
    | .error (.format path) => shell recur (octets "/bin/sh") (path :: args)
    | .error (.errno e) =>
      writeTo 2 (starter ++ octets ": " ++ (if starter = octets "xargs" then program
        else inShellQuotes program) ++ octets ": " ++ octets e.reason ++ ['\n'])
      return if e = .notFound then 127 else 126

end

/-- The most programs that take each other's place. -/
def startLimit : Nat := 1000

/-- Runs a program in the place of the shell. -/
def execute (recur : Runner) (name : Octets) (args : List Octets) : Act Nat := do
  let sh ← get
  match Program.find sh.disk (searchDirs sh) name args with
  | .ok l => become recur startLimit l
  | .error (.format path) => shell recur (octets "/bin/sh") (path :: args)
  | .error (.errno e) =>
    let isMissing := e = .notFound || e = .notDirectory
    complain (name ++ octets ": " ++ octets (if isMissing then "not found" else e.reason))
    setStatus (if isMissing ∨ e = .tooManyLinks ∨ e = .nameTooLong then 127 else 126)
    throw .replaced

def replaceBy (recur : Runner) (name : Octets) (args : List Octets) : Act Nat := do
  let ending ← inProcess recur jobLimit (execute recur name args)
  match ending with
  | .signal n => throw (.killed n)
  | .status n =>
    setStatus n
    throw .replaced

end Interpreter

end Depot.Host
