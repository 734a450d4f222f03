import Depot.Host.Shell
import Depot.Host.Tool.Table

/-! Programs by their names and paths, and what becomes of texts that name a program to read them. -/

namespace Depot.Host

open Files

inductive Starter where
  | environment | arguments | found | located | limit | plain (skipped : Nat)
  deriving DecidableEq

inductive Program where
  | tool (work : Work Unit)
  | shell
  | starter (kind : Starter)

inductive Refusal where
  | errno (e : Errno)
  /-- The file does not say what reads it. -/
  | format (path : Octets)
  deriving DecidableEq

/-- A program ready to run, with the name it goes by and its arguments. -/
structure Loaded where
  program : Program
  name : Octets
  args : List Octets

namespace Program

def named? (name : Octets) : Option Program :=
  match String.ofList name with
  | "sh" | "dash" | "bash" => some .shell
  | "env" => some (.starter .environment)
  | "xargs" => some (.starter .arguments)
  | "find" => some (.starter .found)
  | "which" => some (.starter .located)
  | "timeout" => some (.starter .limit)
  | "nohup" => some (.starter (.plain 0))
  | "nice" => some (.starter (.plain 0))
  | _ => (Tool.named? name).map .tool

def standard? (path : Octets) : Option Program :=
  let dirs := [octets "/bin/", octets "/usr/bin/"]
  dirs.findSome? fun dir => if dir.isPrefixOf path then named? (path.drop dir.length) else none

/-- The program that reads a text, and an argument for it, as the first line of the text says. -/
def readerOf? (text : Octets) : Option (Octets × Option Octets) :=
  match text with
  | '#' :: '!' :: rest =>
    let isBlank := fun c : Char => c = ' ' || c = '\t'
    let line := (rest.takeWhile (· ≠ '\n')).dropWhile isBlank
    let reader := line.takeWhile fun c => !isBlank c
    let option := (((line.drop reader.length).dropWhile isBlank).reverse.dropWhile isBlank).reverse
    if reader = [] then none else some (reader, if option = [] then none else some option)
  | _ => none

def readerLimit : Nat := 5

def load (d : Disk) : Nat → Octets → Octets → List Octets → Except Refusal Loaded
  | more, path, name, args =>
    match d.stat path.toBytes with
    | .error e =>
      match standard? path with
      | some program => .ok ⟨program, name, args⟩
      | none => .error (.errno e)
    | .ok (.file mode data) =>
      if mode &&& Disk.ownerRun = 0 then .error (.errno .denied)
      else match readerOf? (.ofBytes data) with
        | none => .error (.format path)
        | some (reader, option) =>
          match more with
          | 0 => .error (.errno .tooManyLinks)
          | more + 1 => load d more reader reader (option.toList ++ path :: args)
    | .ok _ => .error (.errno .denied)

def standardDirs : Octets :=
  octets "/usr/local/sbin:/usr/local/bin:/usr/sbin:/usr/bin:/sbin:/bin"

def candidates (dirs name : Octets) : List Octets :=
  if name.contains '/' then [name]
  else (splitAtSep ':' dirs).map fun dir => if dir = [] then name else dir ++ '/' :: name

/-- Loads the first program of some paths that is there. A path that cannot be run does not count,
but its reason is given if there is no other. -/
def loadFirst (d : Disk) (name : Octets) (args : List Octets) :
    Refusal → List Octets → Except Refusal Loaded
  | refusal, [] => .error refusal
  | refusal, path :: paths =>
    match load d readerLimit path name args with
    | .error (.errno e) =>
      let refusal := if e = .notFound ∨ e = .notDirectory then refusal else .errno e
      loadFirst d name args refusal paths
    | r => r

def find (d : Disk) (dirs name : Octets) (args : List Octets) : Except Refusal Loaded :=
  if name = [] then .error (.errno .notFound)
  else if name.contains '/' then load d readerLimit name name args
  else loadFirst d name args (.errno .notFound) (candidates dirs name)

/-- The path of a program that a name stands for: a file that may be run, or one of the standard
directories. Otherwise, the reason why there is none. -/
def locate (d : Disk) (dirs name : Octets) : Except Errno Octets :=
  go .notFound (if name = [] then [] else candidates dirs name)
where
  go : Errno → List Octets → Except Errno Octets
    | e, [] => .error e
    | e, path :: paths =>
      match d.stat path.toBytes with
      | .ok (.file mode _) => if mode &&& Disk.ownerRun ≠ 0 then .ok path else go .denied paths
      | .ok _ => go .denied paths
      | .error reason =>
        if (standard? path).isSome then .ok path
        else go (if reason = .notFound ∨ reason = .notDirectory then e else reason) paths

end Program

end Depot.Host
