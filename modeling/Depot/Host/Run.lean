import Depot.Host.Interpreter
import Depot.Process.Command

/-! The system that a depot in memory runs its commands on. -/

namespace Depot.Host

open Files

def depth : Nat := 20000

/-- The variables that the host gives to every program besides those it is asked for. -/
def hostVariables : Environment := [("PATH", Octets.toBytes Program.standardDirs)]

/-- A process in which a host starts a command: it has no input, and its output and its complaints
are kept. -/
def Shell.atStart (env : Environment) (d : Disk) : Shell :=
  let vars := (env ++ hostVariables.filter fun v => (assoc? v.1 env).isNone).map fun v =>
    (octets v.1, ({ value := some (.ofBytes v.2), isExported := true } : Variable))
  { pid := 1000
    rootPid := 1000
    parent := 999
    name := []
    vars := vars
    streams := [(0, 0), (1, 1), (2, 2)]
    cwd := d.cwd
    machine := ⟨{ d with cwd := [] }, #[.void, .sink [], .sink []], 1001, []⟩ }

/-- The system of a depot that is held in memory. Its programs are a shell and the common tools. -/
instance : Host where
  start env d program args :=
    let sh := Shell.atStart env d
    match Program.find d (Interpreter.searchDirs sh) (.ofBytes program)
        (args.map Octets.ofBytes) with
    | .error (.errno e) => .error e
    | .error (.format _) => .error .invalid
    | .ok loaded =>
      let recur := Interpreter.run depth
      let run := Interpreter.become recur Interpreter.startLimit loaded
      let (ending, sh) := Interpreter.inProcess recur Interpreter.jobLimit run sh
      let code := match ending with
        | .ok (.status n) => some n
        | _ => none
      let kept (i : Nat) := Octets.toBytes (sh.machine.collected i)
      .ok (sh.machine.disk, ⟨kept 1, kept 2, code⟩)

end Depot.Host
