import Depot.Host.Channel
import Depot.Host.Number
import Depot.Host.Source
import Depot.Pairs

/-! Shells at work: what a shell knows, and the actions that change it. -/

namespace Depot.Host

open Files

structure Variable where
  /-- Nothing for a variable that is known but not set. -/
  value : Option Octets := none
  isExported : Bool := false
  /-- The value may not change. -/
  isFixed : Bool := false

/-- What a shell has of its own, and hands on to a shell that it starts. -/
structure Process where
  pid : Nat
  /-- The process that the shell calls its own, in shells that it has started too. -/
  rootPid : Nat
  parent : Nat
  /-- The name that complaints begin with. -/
  name : Octets
  args : List Octets := []
  vars : List (Octets × Variable) := []
  functions : List (Octets × Script) := []
  documents : Documents := []
  nextDocument : Nat := 0
  aliases : List (Octets × Octets) := []
  /-- The names that have been looked up and found to be programs. -/
  found : List Octets := []
  /-- The letters of the options that are on. -/
  options : List Char := []
  status : Nat := 0
  /-- The status of the last text that was taken for its output. -/
  outputStatus : Nat := 0
  /-- The channel of each stream. -/
  streams : List (Nat × Nat) := []
  cwd : Place := []
  /-- The working directory by the names it was reached by. -/
  cwdName : Octets := []
  /-- What to do at the end, by 0, or at a signal: nothing, or run a text. -/
  traps : List (Nat × Octets) := []
  /-- The line of the command at work, in its script. -/
  line : Nat := 0
  isInFunction : Bool := false
  /-- The builtin at work. -/
  builtin : Option Octets := none
  loopDepth : Nat := 0
  /-- What local variables were before, for each function at work. -/
  frames : List (List (Octets × Option Variable)) := []
  /-- The characters of the last word that `getopts` has not given yet. -/
  optionRest : Octets := []
  lastChild : Option Nat := none
  mask : Nat := 0o022
  /-- The status that the shell goes back to after a trap, or ends with. -/
  savedStatus : Option Nat := none

/-- A command in the background. It begins when somebody waits for it. -/
structure Job where
  pid : Nat
  task : Option (Process × Script)
  status : Nat := 0
  /-- The signal that ended it. -/
  signal : Option Nat := none

structure Shell extends Process where
  machine : Machine
  jobs : List Job := []

inductive Stop where
  | leaveLoop (depth : Nat)
  | nextRound (depth : Nat)
  /-- Leaves a function, or a script read by another. -/
  | leaveCall
  | exit
  /-- The shell has complained. -/
  | fault
  /-- Another program has taken the place of the shell and has ended. -/
  | replaced
  | killed (signal : Nat)
  deriving DecidableEq

abbrev Act := ExceptT Stop (StateM Shell)

namespace Act

def attempt {α : Type} (a : Act α) : Act (Except Stop α) := fun sh =>
  let (r, sh) := a sh
  (.ok r, sh)

/-- Goes on as an action did that was attempted. -/
def resume {α : Type} : Except Stop α → Act α
  | .ok a => pure a
  | .error stop => throw stop

/-- Does something at the end of an action, however it stops. -/
def andThen {α : Type} (a : Act α) (last : Act Unit) : Act α := do
  let r ← attempt a
  last
  resume r

end Act

namespace Shell

def channelOf (sh : Shell) (stream : Nat) : Option Nat := assoc? stream sh.streams

def disk (sh : Shell) : Disk := { sh.machine.disk with cwd := sh.cwd }

def setDisk (sh : Shell) (d : Disk) : Shell :=
  { sh with machine := { sh.machine with disk := { d with cwd := [] } } }

def option (sh : Shell) (letter : Char) : Bool := sh.options.contains letter

end Shell

def changeMachine (f : Machine → Machine) : Act Unit :=
  modify fun sh => { sh with machine := f sh.machine }

/-- Writes to a stream. Who writes what nobody reads is killed. -/
def tryWrite (stream : Nat) (text : Octets) : Act Bool := do
  let sh ← get
  match sh.channelOf stream with
  | none => return text.isEmpty
  | some i =>
    match sh.machine.write i text with
    | .ok m =>
      set { sh with machine := m }
      return true
    | .error .unread => throw (.killed 13)
    | .error _ => return text.isEmpty

def writeTo (stream : Nat) (text : Octets) : Act Unit := do
  let _ ← tryWrite stream text

/-- A complaint of the shell, on the line of the command at work. -/
def complain (text : Octets) : Act Unit := do
  let sh ← get
  let builtin := match sh.builtin with
    | some name => name ++ octets ": "
    | none => []
  writeTo 2 (sh.name ++ octets ": " ++ digits sh.line ++ octets ": " ++ builtin ++ text ++ ['\n'])

def setStatus (status : Nat) : Act Unit := modify fun sh => { sh with status := status }

def failWith {α : Type} (text : Octets) (status : Nat := 2) : Act α := do
  complain text
  setStatus status
  throw .fault

/-! Variables -/

def Shell.var? (sh : Shell) (name : Octets) : Option Octets :=
  (assoc? name sh.vars).bind (·.value)

def Shell.var (sh : Shell) (name : String) : Octets := (sh.var? (octets name)).getD []

def Shell.environment (sh : Shell) : List (Octets × Octets) :=
  sh.vars.filterMap fun v =>
    if v.2.isExported then v.2.value.map fun value => (v.1, value) else none

def demandName (name : Octets) : Act Unit := do
  if !isName name then
    failWith (name.takeWhile (· ≠ '=') ++ octets ": bad variable name")

/-- Changes a variable, unless its value may not change. -/
def changeVar (name : Octets) (f : Variable → Variable) : Act Unit := do
  let sh ← get
  let old := (assoc? name sh.vars).getD {}
  if old.isFixed then failWith (name ++ octets ": is read only")
  let new := f old
  let new := if sh.option 'a' then { new with isExported := true } else new
  set { sh with
    vars := assocSet name new sh.vars
    found := if name = octets "PATH" then [] else sh.found
    optionRest := if name = octets "OPTIND" then [] else sh.optionRest }

def setVar (name value : Octets) : Act Unit := do
  demandName name
  changeVar name fun v => { v with value := some value }

def unsetVar (name : Octets) : Act Unit := do
  let sh ← get
  match assoc? name sh.vars with
  | none => return ()
  | some v =>
    if v.isFixed then failWith (name ++ octets ": is read only")
    set { sh with vars := assocErase name sh.vars }

/-- Keeps what a variable is now, to be put back when the function at work ends. -/
def keepVar (name : Octets) : Act Unit := modify fun sh =>
  match sh.frames with
  | [] => sh
  | frame :: frames =>
    if (assoc? name frame).isSome then sh
    else { sh with frames := ((name, assoc? name sh.vars) :: frame) :: frames }

def dropFrame : Act Unit := modify fun sh =>
  match sh.frames with
  | [] => sh
  | frame :: frames =>
    { sh with
      frames := frames
      vars := frame.foldl (fun vars kept =>
        match kept.2 with
        | some v => assocSet kept.1 v vars
        | none => assocErase kept.1 vars) sh.vars }

def withFrame {α : Type} (a : Act α) : Act α := do
  modify fun sh => { sh with frames := [] :: sh.frames }
  a.andThen dropFrame

/-! Streams -/

def setStream (stream : Nat) (channel : Option Nat) : Act Unit := modify fun sh =>
  { sh with
    streams := match channel with
      | some i => assocSet stream i sh.streams
      | none => assocErase stream sh.streams }

def openChannel (c : Channel) : Act Nat := do
  let sh ← get
  let (m, i) := sh.machine.opened c
  set { sh with machine := m }
  return i

def withStream {α : Type} (stream channel : Nat) (a : Act α) : Act α := do
  let old := (← get).channelOf stream
  setStream stream (some channel)
  a.andThen (setStream stream old)

/-! Processes -/

/-- Names of signals, by their numbers from 1 on. -/
def signalNames : List String :=
  ["HUP", "INT", "QUIT", "ILL", "TRAP", "ABRT", "BUS", "FPE", "KILL", "USR1", "SEGV", "USR2",
    "PIPE", "ALRM", "TERM", "STKFLT", "CHLD", "CONT", "STOP", "TSTP", "TTIN", "TTOU", "URG",
    "XCPU", "XFSZ", "VTALRM", "PROF", "WINCH", "POLL", "PWR", "SYS"]

def signalText (signal : Nat) : String :=
  (["Hangup", "Interrupt", "Quit", "Illegal instruction", "Trace/breakpoint trap", "Aborted",
    "Bus error", "Floating point exception", "Killed", "User defined signal 1",
    "Segmentation fault", "User defined signal 2", "Broken pipe", "Alarm clock", "Terminated",
    "Stack fault", "Child exited", "Continued", "Stopped (signal)", "Stopped",
    "Stopped (tty input)", "Stopped (tty output)", "Urgent I/O condition",
    "CPU time limit exceeded", "File size limit exceeded", "Virtual timer expired",
    "Profiling timer expired", "Window changed", "I/O possible", "Power failure",
    "Bad system call"][signal - 1]?).getD "Unknown signal"

/-- A process goes on after these signals. -/
def isHarmless (signal : Nat) : Bool := signal ∈ [0, 17, 18, 23, 28]

def newProcess : Act Nat := do
  let sh ← get
  set { sh with machine := { sh.machine with nextProcess := sh.machine.nextProcess + 1 } }
  return sh.machine.nextProcess

inductive Ending where
  | status (code : Nat)
  | signal (n : Nat)
  deriving DecidableEq

def Ending.code : Ending → Nat
  | .status code => code
  | .signal n => 128 + n

end Depot.Host
