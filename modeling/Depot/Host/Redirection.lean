import Depot.Host.Expansion

/-! Streams of commands that go elsewhere. -/

namespace Depot.Host

open Files

inductive Ready where
  | path (mode : Machine.OpenMode) (path : Octets)
  | same (stream : Nat)
  | closed
  | text (cs : Octets)

namespace Redirection

def prepare (capture : Capturer) : Target → Act Ready
  | .read w => do return .path { canRead := true } (← expandText capture false w)
  | .write mayReplace w => do
    let path ← expandText capture false w
    let isNew := !mayReplace && (← get).option 'C'
    return .path { canWrite := true, creates := true, empties := true, isNew := isNew } path
  | .append w => do
    let path ← expandText capture false w
    return .path { canWrite := true, creates := true, isAppend := true } path
  | .readWrite w => do
    return .path { canRead := true, canWrite := true, creates := true }
      (← expandText capture false w)
  | .same w => do
    let text ← expandText capture false w
    match text with
    | ['-'] => return .closed
    | [c] =>
      if c.isDigit then return .same (naturalOf [c])
      else failWith (octets "Syntax error: Bad fd number")
    | _ => failWith (octets "Syntax error: Bad fd number")
  | .document number => do
    let w := (assoc? number (← get).documents).getD []
    return .text (← expandDocument capture w)

def prepareAll (capture : Capturer) : List Redirect → Act (List (Nat × Ready))
  | [] => return []
  | (stream, target) :: rs => do
    let ready ← prepare capture target
    return (stream, ready) :: (← prepareAll capture rs)

def streamOf? (path : Octets) : Option Nat :=
  if path = octets "/dev/stdin" then some 0
  else if path = octets "/dev/stdout" then some 1
  else if path = octets "/dev/stderr" then some 2
  else [octets "/dev/fd/", octets "/proc/self/fd/"].findSome? fun dir =>
    let number := path.drop dir.length
    if dir.isPrefixOf path ∧ number ≠ [] ∧ number.all Char.isDigit then some (naturalOf number)
    else none

def openFor (mode : Machine.OpenMode) (path : Octets) : Act (Option Nat) := do
  let sh ← get
  let refuse (e : Errno) : Act (Option Nat) := do
    let isMissing := e = .notFound || e = .notDirectory
    let reason := if mode.creates then if isMissing then "Directory nonexistent" else e.reason
      else if isMissing then "No such file" else e.reason
    complain (octets (if mode.creates then "cannot create " else "cannot open ") ++ path ++
      octets ": " ++ octets reason)
    return none
  match streamOf? path with
  | some stream =>
    match sh.channelOf stream with
    | some i => return some i
    | none => refuse .notFound
  | none =>
    let m := { sh.machine with disk := { sh.machine.disk with cwd := sh.cwd } }
    match m.openPath path mode (0o666 - (0o666 &&& sh.mask)) with
    | .ok (m, i) =>
      set { sh with machine := { m with disk := { m.disk with cwd := [] } } }
      return some i
    | .error e => refuse e

/-- Redirects one stream; says whether that went well. -/
def apply (stream : Nat) : Ready → Act Bool
  | .path mode path => do
    match ← openFor mode path with
    | some i =>
      setStream stream (some i)
      return true
    | none => return false
  | .same other => do
    match (← get).channelOf other with
    | some i =>
      setStream stream (some i)
      return true
    | none =>
      if other = stream then return true
      complain (digits other ++ octets ": Bad file descriptor")
      return false
  | .closed => do
    setStream stream none
    return true
  | .text cs => do
    let i ← openChannel (.supply cs)
    setStream stream (some i)
    return true

/-- Redirects streams in order, up to the first that fails. -/
def applyAll : List (Nat × Ready) → Act Bool
  | [] => return true
  | (stream, ready) :: rest => do
    if ← apply stream ready then applyAll rest else return false

/-- Runs an action, and puts streams back then. -/
def restoring {α : Type} (rs : List (Nat × Ready)) (a : Act α) : Act α := do
  let before ← get
  a.andThen do
    for (stream, _) in rs do
      setStream stream (before.channelOf stream)

end Redirection

end Depot.Host
