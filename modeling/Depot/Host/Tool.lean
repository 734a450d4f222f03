import Depot.Host.Channel
import Depot.Host.Quote
import Depot.Text.Lines

/-! Programs of the host that are no shells: what they are given and what they leave. -/

namespace Depot.Host

open Files

structure Call where
  /-- The name it was called by. -/
  name : Octets
  args : List Octets
  input : Except ChannelFault Octets
  /-- What has been read too far can be given back. -/
  canRewind : Bool
  environment : List (Octets × Octets)
  mask : Nat

structure Bench where
  disk : Disk
  /-- What it has written, the last piece first, and whether to the error stream. -/
  writes : List (Bool × Octets) := []
  status : Nat := 0
  /-- How much of the input it has used. -/
  used : Nat := 0
  /-- What it says of how it is called. -/
  usage : Octets := []

/-- The work of a tool. It may end early, with a status. -/
abbrev Work := ReaderT Call (ExceptT Nat (StateM Bench))

namespace Work

def put (text : Octets) : Work Unit := modify fun b => { b with writes := (false, text) :: b.writes }

def putLine (text : Octets) : Work Unit := put (text ++ ['\n'])

def putError (text : Octets) : Work Unit :=
  modify fun b => { b with writes := (true, text) :: b.writes }

/-- Complains; the tool goes on, and will fail. -/
def warn (text : Octets) (status : Nat := 1) : Work Unit := do
  putError ((← read).name ++ octets ": " ++ text ++ ['\n'])
  modify fun b => { b with status := status }

def die {α : Type} (text : Octets) (status : Nat := 1) : Work α := do
  warn text status
  throw status

def help {α : Type} (status : Nat := 1) : Work α := do
  putError ((← get).usage ++ octets "Try '" ++ (← read).name ++
    octets " --help' for more information.\n")
  throw status

def misused {α : Type} (text : Octets) (status : Nat := 1) : Work α := do
  warn text status
  help status

def errnoText (e : Errno) : Octets :=
  octets (match e with
    | .badText => "Invalid argument"
    | e => e.reason)

/-- The name of a file with the reason why it cannot be used. -/
def because (path : Octets) (e : Errno) : Octets := nameShown path ++ octets ": " ++ errnoText e

def pending : Work (Except Octets Octets) := do
  match (← read).input with
  | .ok text => return .ok (text.drop (← get).used)
  | .error .isDirectory => return .error (octets "Is a directory")
  | .error _ => return .error (octets "Bad file descriptor")

def input : Work (Except Octets Octets) := do
  let r ← pending
  if let .ok text := r then modify fun b => { b with used := b.used + text.length }
  return r

/-- Passes over what has been used of the input: so many characters, or the blocks that hold them if
what has been read cannot be given back. -/
def use (count : Nat) (isExact : Bool := false) : Work Unit := do
  let call ← read
  let length := match call.input with
    | .ok text => text.length
    | .error _ => 0
  modify fun b =>
    let used := if call.canRewind ∨ isExact then count else (count + 8191) / 8192 * 8192
    { b with used := min (b.used + used) length }

/-- The text of a file, or of the input for `-`; or why there is none. -/
def text (path : Octets) : Work (Except Octets Octets) := do
  if path = ['-'] ∨ path = octets "/dev/stdin" then input
  else match (← get).disk.read path.toBytes with
    | .ok data => return .ok (.ofBytes data)
    | .error e => return .error (errnoText e)

def change (f : Disk → Except Errno Disk) (complaint : Errno → Octets) : Work Bool := do
  match f (← get).disk with
  | .ok d =>
    modify fun b => { b with disk := d }
    return true
  | .error e =>
    warn (complaint e)
    return false

end Work

/-! Options -/

/-- An option of a tool: its letter, its long name and whether it takes a value. -/
structure OptionSpec where
  letter : Char
  name : String := ""
  hasValue : Bool := false
  /-- The long name may be given a value. -/
  mayHaveValue : Bool := false

def OptionSpec.flag (letter : Char) (name : String) : OptionSpec := { letter, name }

def OptionSpec.valued (letter : Char) (name : String) : OptionSpec :=
  { letter, name, hasValue := true }

def OptionSpec.loose (letter : Char) (name : String) : OptionSpec :=
  { letter, name, mayHaveValue := true }

structure Options where
  found : List (Char × Octets) := []
  operands : List Octets := []

namespace Options

def has (o : Options) (letter : Char) : Bool := o.found.any fun f => f.1 = letter

def value? (o : Options) (letter : Char) : Option Octets :=
  (o.found.reverse.find? fun f => f.1 = letter).map (·.2)

def last? (o : Options) (letters : List Char) : Option Char :=
  (o.found.reverse.find? fun f => letters.contains f.1).map (·.1)

def readLetters (specs : List OptionSpec) (status : Nat) :
    Octets → List Octets → Work (List (Char × Octets) × List Octets)
  | [], args => return ([], args)
  | c :: cs, args => do
    match specs.find? fun s => s.letter = c with
    | none => Work.misused (octets "invalid option -- '" ++ [c, '\'']) status
    | some spec =>
      if !spec.hasValue then
        let (more, args) ← readLetters specs status cs args
        return ((c, []) :: more, args)
      else match cs, args with
        | _ :: _, _ => return ([(c, cs)], args)
        | [], value :: args => return ([(c, value)], args)
        | [], [] => Work.misused (octets "option requires an argument -- '" ++ [c, '\'']) status

def readLong (specs : List OptionSpec) (status : Nat) (word : Octets) (args : List Octets) :
    Work ((Char × Octets) × List Octets) := do
  let name := word.takeWhile (· ≠ '=')
  let value? := if name.length < word.length then some (word.drop (name.length + 1)) else none
  let named := specs.filter fun s => s.name ≠ "" && name.isPrefixOf s.name.toList
  let named := match named.filter fun s => s.name.toList = name with
    | [] => named
    | exact => exact
  let shown := octets "'--" ++ name ++ ['\'']
  match named with
  | [] => Work.misused (octets "unrecognized option '--" ++ word ++ ['\'']) status
  | [spec] =>
    let full := octets "'--" ++ octets spec.name ++ ['\'']
    match spec.hasValue, value?, args with
    | true, some value, args => return ((spec.letter, value), args)
    | true, none, value :: args => return ((spec.letter, value), args)
    | true, none, [] => Work.misused (octets "option " ++ full ++ octets " requires an argument") status
    | false, none, args => return ((spec.letter, []), args)
    | false, some value, args =>
      if spec.mayHaveValue then return ((spec.letter, value), args)
      else Work.misused (octets "option " ++ full ++ octets " doesn't allow an argument") status
  | _ =>
    let all := named.flatMap fun s => octets " '--" ++ octets s.name ++ ['\'']
    Work.misused (octets "option " ++ shown ++ octets " is ambiguous; possibilities:" ++ all) status

/-- Reads options wherever they stand, up to `--`; `isOrdered` ends them at the first operand. -/
def readFrom (specs : List OptionSpec) (isOrdered : Bool) (status : Nat) :
    Nat → List Octets → Work Options
  | 0, args => return { operands := args }
  | fuel + 1, args => do
    match args with
    | [] => return {}
    | ['-', '-'] :: rest => return { operands := rest }
    | ('-' :: '-' :: word) :: rest =>
      let (found, rest) ← readLong specs status word rest
      let more ← readFrom specs isOrdered status fuel rest
      return { more with found := found :: more.found }
    | ('-' :: c :: cs) :: rest =>
      let (found, rest) ← readLetters specs status (c :: cs) rest
      let more ← readFrom specs isOrdered status fuel rest
      return { more with found := found ++ more.found }
    | operand :: rest =>
      if isOrdered then return { operands := operand :: rest }
      else
        let more ← readFrom specs isOrdered status fuel rest
        return { more with operands := operand :: more.operands }

/-- Options by their letters; a colon after a letter says that it takes a value. -/
def letters : List Char → List OptionSpec
  | c :: ':' :: rest => { letter := c, hasValue := true } :: letters rest
  | c :: rest => { letter := c } :: letters rest
  | [] => []

def read (spec : String) (long : List OptionSpec) (args : List Octets) (isOrdered : Bool := false)
    (status : Nat := 1) : Work Options :=
  readFrom (long ++ letters spec.toList) isOrdered status (args.length + 1) args

end Options

def fullLines (cs : Octets) : List Octets :=
  let parts := splitAtSep '\n' cs
  let last := parts.getLastD []
  parts.dropLast.map (· ++ ['\n']) ++ if last = [] then [] else [last]

def bareLines (cs : Octets) : List Octets :=
  let parts := splitAtSep '\n' cs
  if parts.getLastD [] = [] then parts.dropLast else parts

def atRight (width : Nat) (cs : Octets) : Octets := List.replicate (width - cs.length) ' ' ++ cs

end Depot.Host
