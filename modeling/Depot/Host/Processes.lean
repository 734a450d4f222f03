import Depot.Host.Program
import Depot.Host.Reader

/-!
Scripts as the work of processes. How the parts of a script are run is left open here: each definition
takes what runs them.
-/

namespace Depot.Host

open Files

structure Mode where
  /-- Something looks at whether it fails. -/
  isTested : Bool := false
  /-- Nothing comes after it in its process. -/
  isLast : Bool := false

abbrev Runner := Mode → Script → Act Nat

namespace Interpreter

def tested (m : Mode) : Mode := ⟨m.isTested, false⟩

/-! Texts -/

/-- Runs the commands of a text, line by line, so that what comes before a fault is run. -/
def runSource (recur : Runner) (mode : Mode) : Nat → Source → Nat → Act Nat
  | 0, _, status => return status
  | more + 1, source, status => do
    let sh ← get
    match Source.nextLine { source with aliases := sh.aliases, next := sh.nextDocument } with
    | .error fault =>
      modify fun sh => { sh with line := fault.line }
      failWith (octets fault.text)
    | .ok (none, _) => return status
    | .ok (some script, source) =>
      let isEnd := match source.pushed with
        | some .done => true
        | _ => false
      modify fun sh =>
        { sh with documents := sh.documents ++ source.documents, nextDocument := source.next }
      let status ← recur ⟨mode.isTested, mode.isLast && isEnd⟩ script
      runSource recur mode more { source with documents := [] } status

def runText (recur : Runner) (mode : Mode) (text : Octets) : Act Nat :=
  runSource recur mode (text.length + 2) { rest := text } 0

/-! Traps and signals -/

def hasTraps (sh : Shell) : Bool := sh.traps.any fun t => t.2 ≠ []

def onSignal (recur : Runner) (signal : Nat) : Act Unit := do
  let sh ← get
  match if signal = 9 then none else assoc? signal sh.traps with
  | some [] => return ()
  | some text =>
    let saved := sh.savedStatus
    let status := saved.getD sh.status
    modify fun sh => { sh with savedStatus := some status }
    let _ ← runText recur {} text
    modify fun sh => { sh with status := status, savedStatus := saved }
  | none => if isHarmless signal then return () else throw (.killed signal)

def takeSignals (recur : Runner) : Act Unit := do
  let sh ← get
  let mine := sh.machine.signals.filter fun s => s.1 = sh.pid
  if mine ≠ [] then
    let others := sh.machine.signals.filter fun s => s.1 ≠ sh.pid
    set { sh with machine := { sh.machine with signals := others } }
    for (_, signal) in mine do
      onSignal recur signal

/-! Processes -/

/-- What a process hands on to one that it starts. -/
def childOf (p : Process) (pid : Nat) : Process :=
  { p with
    pid := pid
    parent := p.pid
    traps := p.traps.filter fun t => t.2 = []
    savedStatus := none }

mutual

def runJobs (recur : Runner) : Nat → Act Unit
  | 0 => return ()
  | more + 1 => do
    match (← get).jobs.find? fun j => j.task.isSome with
    | some job =>
      runJob recur more job
      runJobs recur more
    | none => return ()

def runJob (recur : Runner) : Nat → Job → Act Unit
  | 0, _ => return ()
  | more + 1, job => do
    match job.task with
    | none => return ()
    | some (p, script) =>
      let before ← get
      set ({ toProcess := p, machine := before.machine } : Shell)
      let ending ← inProcess recur more (recur ⟨false, true⟩ script)
      let after ← get
      let signal := match ending with
        | .signal n => some n
        | _ => none
      let ended (j : Job) : Job :=
        if j.pid = job.pid then
          { j with task := none, status := ending.code, signal := signal }
        else j
      set { before with machine := after.machine, jobs := before.jobs.map ended }

/-- Runs an action to the end of its process: then comes what is to be done at the end, and what is
in the background. -/
def inProcess (recur : Runner) : Nat → Act Nat → Act Ending
  | 0, _ => return .signal 11
  | more + 1, a => do
    match ← a.attempt with
    | .error (.killed n) => return .signal n
    | .error .replaced => return .status (← get).status
    | r =>
      let sh ← get
      let status := match r with
        | .ok status => status
        | .error _ => sh.status
      let status := sh.savedStatus.getD status
      match assoc? 0 sh.traps with
      | none =>
        runJobs recur more
        return .status (status % 256)
      | some text =>
        set { sh with traps := assocErase 0 sh.traps, status := status, savedStatus := some status }
        match ← (runText recur {} text).attempt with
        | .error (.killed n) => return .signal n
        | .error .replaced => return .status (← get).status
        | r =>
          let sh ← get
          runJobs recur more
          return .status ((match r with
            | .error .fault => sh.status
            | _ => sh.savedStatus.getD status) % 256)

end

def jobLimit : Nat := 1000

def forked (recur : Runner) (a : Act Nat) : Act Ending := do
  let pid ← newProcess
  let before ← get
  set ({ toProcess := childOf before.toProcess pid, machine := before.machine } : Shell)
  let ending ← inProcess recur jobLimit a
  let after ← get
  set { before with machine := after.machine }
  takeSignals recur
  return ending

/-- The status of a process that somebody has waited for; its end by a signal is reported. -/
def reported (ending : Ending) : Act Nat := do
  if let .signal n := ending then
    if n ≠ 2 ∧ n ≠ 13 then writeTo 2 (octets (signalText n) ++ ['\n'])
  return ending.code

/-- Runs a script and gives its output, without the line feeds at the end. -/
def capture (recur : Runner) : Capturer := fun script => do
  let i ← openChannel (.sink [])
  let ending ← withStream 1 i (forked recur (recur ⟨false, true⟩ script))
  let status ← reported ending
  modify fun sh => { sh with outputStatus := status }
  let text := (← get).machine.collected i
  changeMachine fun m => m.setChannel i .void
  return ((text.reverse.dropWhile (· = '\n')).reverse).filter (· ≠ '\x00')

end Interpreter

end Depot.Host
