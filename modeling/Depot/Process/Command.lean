import Depot.Failure
import Depot.Files.Disk
import Depot.Text.Lines

/-!
Commands run to their end, and what is made of their output. Which program a name stands for, and all
that the program does, is up to the system that the commands run on.
-/

namespace Depot

open Files

abbrev Environment := List (String × Bytes)

/-- A program with its arguments, to be run in a directory. -/
structure Command where
  program : Bytes
  args : List Bytes
  dir : Option Bytes := none
  deriving DecidableEq, Repr

/-- What a command that has ended leaves. There is no code if a signal ended it. -/
structure Finished where
  out : Bytes
  err : Bytes
  code : Option Nat
  deriving DecidableEq, Repr

def spaced (words : List String) : String :=
  String.ofList (joinWith [' '] (words.map String.toList))

/-- A command as it is shown to users. -/
def Command.text (c : Command) : String :=
  spaced ((c.program :: c.args).map Utf8.toStringLossy)

def tailLength : Nat := 50

/-- The last lines of both streams, those of the error stream last. -/
def outputTail (out err : List Char) : List Char :=
  let all := lines out ++ lines err
  joinWith ['\n'] (all.drop (all.length - tailLength))

namespace Finished

def output (command : String) (f : Finished) : Except Failure String :=
  let out := Utf8.lossy f.out
  if f.code = some 0 then .ok (String.ofList out)
  else .error (.commandFailed command (f.code.map Int.ofNat)
    (String.ofList (outputTail out (Utf8.lossy f.err))))

end Finished

/-- The first line of an output, without blanks around it. -/
def firstLine (out : String) : String :=
  String.ofList (trimBlank ((lines out.toList).headD []))

/-- A system that programs run on. -/
class Host where
  /-- Runs the program of a name to its end, with variables and arguments, in the working directory of
  a disk and with nothing to read; or the reason why no program is started. -/
  start (env : Environment) (d : Disk) (program : Bytes) (args : List Bytes) :
    Except Errno (Disk × Finished)

namespace Host

/-- The disk as a command sees it that runs in a directory. -/
def within (d : Disk) : Option Bytes → Except Errno Disk
  | none => .ok d
  | some path =>
    match d.locate path with
    | .ok (place, .dir ..) => .ok { d with cwd := place }
    | .ok _ => .error .notDirectory
    | .error e => .error e

variable [Host]

/-- Runs a command to its end, or tells why it is not started. No word of it may hold a NUL. -/
def finish (env : Environment) (d : Disk) (c : Command) : Disk × Except Errno Finished :=
  if (c.program :: c.args).any fun word => (0 : UInt8) ∈ word then (d, .error .invalid)
  else match within d c.dir with
    | .error e => (d, .error e)
    | .ok inner =>
      match start env inner c.program c.args with
      | .error e => (d, .error e)
      | .ok (left, finished) => ({ left with cwd := d.cwd }, .ok finished)

def output (env : Environment) (d : Disk) (c : Command) : Disk × Except Failure String :=
  match finish env d c with
  | (d, .error e) => (d, .error (.commandNotStarted c.text (.errno e)))
  | (d, .ok f) => (d, f.output c.text)

end Host

end Depot
