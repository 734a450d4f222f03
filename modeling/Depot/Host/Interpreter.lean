import Depot.Host.Redirection
import Depot.Host.Starting

/-!
Running scripts. One step of a script is defined over what runs its parts, so running with a bound on
the depth is that step repeated.
-/

namespace Depot.Host

open Files

def roundLimit : Nat := 10000000

namespace Interpreter

/-! Commands that the shell carries out and that run others -/

/-- Runs an action as a builtin. A fault in it stays there unless the builtin is a special one. -/
def asBuiltin (isSpecial : Bool) (name : Octets) (a : Act Nat) : Act Nat := do
  let before := (← get).builtin
  modify fun sh => { sh with builtin := some name }
  let r ← a.attempt
  modify fun sh => { sh with builtin := before }
  match r with
  | .ok status =>
    setStatus status
    return status
  | .error .fault => if isSpecial then throw .fault else return (← get).status
  | .error stop => throw stop

inductive Meaning where
  | keyword
  | alias (text : Octets)
  | builtin (isSpecial : Bool)
  | function
  | program (path : Octets)
  | missing

def meaning (sh : Shell) (name : Octets) : Meaning :=
  if keywords.contains (String.ofList name) then .keyword
  else match assoc? name sh.aliases with
    | some text => .alias text
    | none =>
      match Builtin.find? name, assoc? name sh.functions with
      | some (.special, _), _ => .builtin true
      | _, some _ => .function
      | some (.regular, _), none => .builtin false
      | none, none =>
        match Program.locate sh.disk (searchDirs sh) name with
        | .ok path => .program path
        | .error _ => .missing

def remember (name : Octets) : Act Unit := modify fun sh =>
  if name.contains '/' ∨ sh.found.contains name then sh
  else { sh with found := sh.found ++ [name] }

def describe (names : List Octets) : Act Nat := do
  let mut status := 0
  for name in names do
    let sh ← get
    let text ← match meaning sh name with
      | .keyword => pure (octets " is a shell keyword")
      | .alias text => pure (octets " is an alias for " ++ text)
      | .builtin true => pure (octets " is a special shell builtin")
      | .builtin false => pure (octets " is a shell builtin")
      | .function => pure (octets " is a shell function")
      | .program path => do
        remember name
        pure (octets (if sh.found.contains name then " is a tracked alias for " else " is ") ++ path)
      | .missing => do
        status := 127
        pure (octets ": not found")
    let code ← Builtin.sayLine (name ++ text)
    if code ≠ 0 then status := code
  return status

def locate (name : Octets) : Act Nat := do
  match meaning (← get) name with
  | .alias text => Builtin.sayLine (octets "alias " ++ name ++ '=' :: Builtin.quoted text)
  | .program path =>
    remember name
    Builtin.sayLine path
  | .missing => return 127
  | _ => Builtin.sayLine name

def readIn (recur : Runner) (mode : Mode) (args : List Octets) : Act Nat := do
  match args with
  | [] => return 0
  | name :: _ =>
    let sh ← get
    let paths := Program.candidates (searchDirs sh) name
    let isHere := fun path : Octets => match sh.disk.stat path.toBytes with
      | .ok (.file ..) => true
      | _ => false
    let path ← if name.contains '/' then pure name else match paths.find? isHere with
      | some path => pure path
      | none => failWith (name ++ octets ": not found")
    match sh.disk.read path.toBytes with
    | .error .isDirectory => return 0
    | .error e =>
      let reason := if e = .notFound ∨ e = .notDirectory then "No such file" else e.reason
      failWith (octets "cannot open " ++ path ++ octets ": " ++ octets reason)
    | .ok data =>
      match ← (runText recur (tested mode) (.ofBytes data)).attempt with
      | .error .leaveCall => return (← get).status
      | r => Act.resume r

def waitFor (recur : Runner) (args : List Octets) : Act Nat := do
  if args = [] then
    runJobs recur jobLimit
    modify fun sh => { sh with jobs := [] }
    return 0
  let mut status := 0
  for arg in args do
    let sh ← get
    let pid ← match arg with
      | '%' :: rest =>
        match sh.jobs[naturalOf rest - 1]? with
        | some job => pure job.pid
        | none => failWith (octets "No such job: " ++ arg)
      | arg => Builtin.number arg
    match sh.jobs.find? fun j => j.pid = pid with
    | none => status := 127
    | some job =>
      runJob recur jobLimit job
      let sh ← get
      if let some job := sh.jobs.find? fun j => j.pid = pid then
        status ← reported (match job.signal with
          | some n => .signal n
          | none => .status job.status)
      set { sh with jobs := sh.jobs.filter fun j => j.pid ≠ pid }
  return status

/-- Runs a program in the place of the shell, if one is named. -/
def exec (recur : Runner) (args : List Octets) : Act Nat := do
  match args with
  | [] => return 0
  | ['-', '-'] :: program :: args => replaceBy recur program args
  | program :: args => replaceBy recur program args

/-- The order in which remembered names are listed. -/
def place (name : Octets) : Nat :=
  let first := ((name.head?.map Char.toNat).getD 0) * 16
  name.foldl (fun n c => n + c.toNat) first % 32768 % 31

/-- Looks names up and remembers what they are, forgets what is remembered, or lists it. -/
def hash (args : List Octets) : Act Nat := do
  match args with
  | [] =>
    let sh ← get
    let names := sh.found.mergeSort fun a b => place a ≤ place b
    Builtin.say (names.flatMap fun name =>
      match Program.locate sh.disk (searchDirs sh) name with
      | .ok path => path ++ ['\n']
      | .error _ => [])
  | ['-', 'r'] :: _ =>
    modify fun sh => { sh with found := [] }
    return 0
  | ['-', '-'] :: names => lookUp 0 names
  | ('-' :: c :: _) :: _ => failWith (octets "Illegal option -" ++ [c])
  | names => lookUp 0 names
where
  lookUp (status : Nat) : List Octets → Act Nat
    | [] => return status
    | name :: names => do
      match meaning (← get) name with
      | .missing =>
        complain (name ++ octets ": not found")
        lookUp 1 names
      | .program _ =>
        remember name
        lookUp status names
      | _ => lookUp status names

def runBuiltin (recur : Runner) (mode : Mode) (r : Builtin.Runner) (args : List Octets) : Act Nat :=
  match r with
  | .eval =>
    let args := match args with
      | ['-', '-'] :: args => args
      | args => args
    runText recur (tested mode) (joinWith [' '] args)
  | .source => readIn recur mode args
  | .exec => exec recur args
  | .wait => waitFor recur args
  | .describe => describe args
  | .hash => hash args
  | .command =>
    match args with
    | ['-', 'v'] :: name :: _ => locate name
    | ['-', 'V'] :: name :: _ => describe [name]
    | _ => return 0
  | .job =>
    failWith (octets "No current job")

/-! Commands -/

inductive Action where
  | nothing
  | builtin (isSpecial : Bool) (found : Builtin.Found)
  | function (body : Script)
  | program

def actionOf (sh : Shell) : Nat → Bool → List Octets → Action × List Octets
  | _, _, [] => (.nothing, [])
  | 0, _, words => (.program, words)
  | fuel + 1, isPlain, name :: args =>
    match Builtin.find? name, if isPlain then none else assoc? name sh.functions with
    | some (.special, found), _ => (.builtin (!isPlain) found, name :: args)
    | _, some body => (.function body, name :: args)
    | some (.regular, .runner .command), none =>
      match args with
      | ['-', 'p'] :: inner :: rest | ['-', '-'] :: inner :: rest =>
        actionOf sh fuel true (inner :: rest)
      | ('-' :: _) :: _ => (.builtin false (.runner .command), name :: args)
      | [] => (.builtin false (.runner .command), [name])
      | args => actionOf sh fuel true args
    | some (.regular, found), none => (.builtin false found, name :: args)
    | none, none => (.program, name :: args)

/-- The words of a command say that settings among them keep their values whole. -/
def takesSettings : List Octets → Bool
  | [] => false
  | name :: rest =>
    if name = octets "command" then
      match rest with
      | next :: _ => Builtin.takesSettings next
      | [] => false
    else Builtin.takesSettings name

def commandWords (capture : Capturer) : List Octets → List Word → Act (List Octets)
  | done, [] => return done
  | done, w :: ws => do
    match if takesSettings done then Word.setting? w else none with
    | some (name, value) =>
      let value ← expandText capture true value
      commandWords capture (done ++ [name ++ '=' :: value]) ws
    | none =>
      let fields ← expandFields capture w
      commandWords capture (done ++ fields) ws

def call (recur : Runner) (mode : Mode) (body : Script) (args : List Octets) : Act Nat := do
  let before ← get
  modify fun sh =>
    { sh with args := args, isInFunction := true, loopDepth := 0, optionRest := [] }
  let r ← (recur (tested mode) body).attempt
  modify fun sh =>
    { sh with
      args := before.args
      isInFunction := before.isInFunction
      loopDepth := before.loopDepth
      optionRest := before.optionRest }
  match r with
  | .error .leaveCall => return (← get).status
  | r => Act.resume r

/-- Runs a program as a command: in a process of its own unless nothing comes after it. -/
def program (recur : Runner) (mode : Mode) (name : Octets) (args : List Octets) : Act Nat := do
  let sh ← get
  let isKnown ← if name.contains '/' then pure true
    else match Program.locate sh.disk (searchDirs sh) name with
      | .ok _ => do
        remember name
        pure true
      | .error e =>
        complain (name ++ octets ": " ++
          octets (if e = .notFound then "not found" else e.reason))
        pure false
  if !isKnown then return 127
  if [octets "sleep"].contains name then runJobs recur jobLimit
  if mode.isLast ∧ !hasTraps sh ∧ sh.jobs.all (fun j => j.task.isNone) then replaceBy recur name args
  else
    let ending ← forked recur (execute recur name args)
    reported ending

def trace (channel : Option Nat) (words : List Octets) : Act Unit := do
  if (← get).option 'x' then
    let text := (← get).var "PS4" ++ joinWith [' '] words ++ ['\n']
    match channel with
    | some i => withStream 2 i (writeTo 2 text)
    | none => return ()

def assign (capture : Capturer) (isLocal : Bool) : List Word → Act (List Octets)
  | [] => return []
  | w :: ws => do
    match Word.setting? w with
    | none => assign capture isLocal ws
    | some (name, value) =>
      let value ← expandText capture true value
      if isLocal then
        keepVar name
        changeVar name fun v => { v with value := some value, isExported := true }
      else setVar name value
      return (name ++ '=' :: value) :: (← assign capture isLocal ws)

def simple (recur : Runner) (mode : Mode) (line : Nat) (settings words : List Word)
    (rs : List Redirect) : Act Nat := do
  modify fun sh => { sh with line := line, outputStatus := 0 }
  let capture := capture recur
  let fields ← commandWords capture [] words
  let (action, called) := actionOf (← get) (fields.length + 1) false fields
  let isSpecial := match action with
    | .builtin b _ => b
    | _ => false
  let isLocal := match action with
    | .nothing => false
    | .builtin true _ => false
    | _ => true
  let errors := (← get).channelOf 2
  let ready ← Redirection.prepareAll capture rs
  let isKept := match action, called with
    | .builtin _ (.runner .exec), [_] => true
    | _, _ => false
  let run : Act Nat := do
    if !(← Redirection.applyAll ready) then
      setStatus 2
      if isSpecial then throw .fault else return 2
    let assigned ← assign capture isLocal settings
    trace errors (assigned ++ fields)
    match action, called with
    | .nothing, _ => return (← get).outputStatus
    | .builtin isSpecial found, name :: args =>
      asBuiltin isSpecial name (match found with
        | .plain act => act args
        | .runner r => runBuiltin recur mode r args)
    | .function body, _ :: args => call recur mode body args
    | .program, name :: args => program recur mode name args
    | _, [] => return 0
  let run := if isLocal then withFrame run else run
  if isKept then run else Redirection.restoring ready run

/-- How a loop goes on after one of its parts. -/
inductive Turn where
  | go (status : Nat)
  | again
  | done

/-- What a loop makes of how one of its parts ended. -/
def turn : Except Stop Nat → Act Turn
  | .ok status => return .go status
  | .error (.leaveLoop (n + 2)) => throw (.leaveLoop (n + 1))
  | .error (.leaveLoop _) => return .done
  | .error (.nextRound (n + 2)) => throw (.nextRound (n + 1))
  | .error (.nextRound _) => return .again
  | .error stop => throw stop

def rounds (test body : Act Nat) (isUntil : Bool) : Nat → Nat → Act Nat
  | 0, status => return status
  | more + 1, status => do
    match ← turn (← test.attempt) with
    | .done => return status
    | .again => rounds test body isUntil more status
    | .go result =>
      if (result = 0) = (isUntil = true) then return status
      else
        match ← turn (← body.attempt) with
        | .done => return 0
        | .again => rounds test body isUntil more 0
        | .go status => rounds test body isUntil more status

def roundsFor (name : Octets) (body : Act Nat) : List Octets → Nat → Act Nat
  | [], status => return status
  | value :: values, _ => do
    setVar name value
    match ← turn (← body.attempt) with
    | .done => return 0
    | .again => roundsFor name body values 0
    | .go status => roundsFor name body values status

/-- Runs a loop: what leaves loops can leave it. -/
def inLoop (a : Act Nat) : Act Nat := do
  let depth := (← get).loopDepth
  modify fun sh => { sh with loopDepth := depth + 1 }
  a.andThen (modify fun sh => { sh with loopDepth := depth })

def matchAny (capture : Capturer) (text : Octets) : List Word → Act Bool
  | [] => return false
  | w :: ws => do
    let glob ← expandGlob capture w
    if glob.doesMatch false text then return true else matchAny capture text ws

def branch? (capture : Capturer) (text : Octets) :
    List (List Word × Script) → Act (Option Script)
  | [] => return none
  | (ws, body) :: rest => do
    if ← matchAny capture text ws then return some body else branch? capture text rest

/-- Remembers the program that a stage of a pipe begins with. -/
def rememberStage : Script → Act Unit
  | .simple _ _ (w :: _) _ =>
    match Word.plain? w with
    | some name => do
      if isName name then
        if let .program _ := meaning (← get) name then remember name
    | none => return ()
  | _ => return ()

/-- Runs the stages of a pipe, each with the output of the one before as its input. -/
def stages (recur : Runner) (mode : Mode) : List Script → Act (List Ending)
  | [] => return []
  | [last] => do return [← forked recur (recur ⟨mode.isTested, true⟩ last)]
  | stage :: more => do
    let i ← openChannel (.sink [])
    let ending ← withStream 1 i (forked recur (recur ⟨mode.isTested, true⟩ stage))
    changeMachine fun m => m.turn i
    let endings ← withStream 0 i (stages recur mode more)
    changeMachine fun m => m.setChannel i .void
    return ending :: endings

/-- Runs a script in a shell of its own. -/
def apart (recur : Runner) (mode : Mode) (line : Nat) (body : Script) (rs : List Redirect) :
    Act Nat := do
  modify fun sh => { sh with line := line }
  let ready ← Redirection.prepareAll (capture recur) rs
  let inner : Act Nat := do
    if ← Redirection.applyAll ready then recur ⟨mode.isTested, true⟩ body
    else failWithStatus
  let sh ← get
  if mode.isLast ∧ !hasTraps sh then
    modify fun sh => { sh with jobs := [] }
    let ending ← inProcess recur jobLimit inner
    match ending with
    | .signal n => throw (.killed n)
    | .status n =>
      setStatus n
      throw .replaced
  else
    let ending ← forked recur inner
    reported ending
where
  failWithStatus : Act Nat := do
    setStatus 2
    throw .fault

/-- Ends the shell if a command failed that nothing tests. -/
def checked (mode : Mode) (a : Act Nat) : Act Nat := do
  let status ← a
  setStatus status
  if status ≠ 0 ∧ !mode.isTested ∧ (← get).option 'e' then throw .exit
  return status

/-- One step of a script, given what runs its parts. -/
def step (recur : Runner) (mode : Mode) (script : Script) : Act Nat := do
  if (← get).option 'n' then return 0
  let capture := capture recur
  let keep (a : Act Nat) : Act Nat := do
    let status ← a
    setStatus status
    return status
  let status ← match script with
    | .nothing => return 0
    | .simple line settings words rs => checked mode (simple recur mode line settings words rs)
    | .sequence first second => do
      let _ ← recur (tested mode) first
      recur mode second
    | .both first second => do
      let status ← recur ⟨true, false⟩ first
      if status ≠ 0 then pure status else recur mode second
    | .either first second => do
      let status ← recur ⟨true, false⟩ first
      if status = 0 then pure status else recur mode second
    | .negate inner =>
      keep do
        let status ← recur ⟨true, false⟩ inner
        return if status = 0 then 1 else 0
    | .pipe parts =>
      checked mode do
        for part in parts do rememberStage part
        let endings ← stages recur mode parts
        let mut status := 0
        for ending in endings do
          status ← reported ending
        return status
    | .background inner => do
      let pid ← newProcess
      let null ← openChannel .void
      modify fun sh =>
        let child := childOf sh.toProcess pid
        let child := { child with streams := assocSet 0 null child.streams }
        let job : Job := { pid := pid, task := some (child, inner) }
        { sh with jobs := sh.jobs ++ [job], lastChild := some pid }
      keep (return 0)
    | .choose test yes no => do
      if (← recur ⟨true, false⟩ test) = 0 then recur mode yes
      else match no with
        | some no => recur mode no
        | none => keep (return 0)
    | .loop isUntil test body =>
      keep (inLoop (rounds (recur ⟨true, false⟩ test) (recur (tested mode) body) isUntil roundLimit 0))
    | .forEach line name words body => do
      modify fun sh => { sh with line := line }
      let values ← expandAll capture words
      keep (inLoop (roundsFor name (recur (tested mode) body) values 0))
    | .select line subject branches => do
      modify fun sh => { sh with line := line }
      let text ← expandText capture false subject
      match ← branch? capture text branches with
      | some .nothing | none => keep (return 0)
      | some body => recur mode body
    | .group line body rs => do
      modify fun sh => { sh with line := line }
      let ready ← Redirection.prepareAll capture rs
      keep (Redirection.restoring ready do
        if ← Redirection.applyAll ready then recur (tested mode) body else return 2)
    | .apart line body rs => checked mode (apart recur mode line body rs)
    | .define name body =>
      modify fun sh => { sh with functions := assocSet name body sh.functions }
      keep (return 0)
  takeSignals recur
  return status

/-- Runs a script, to a depth of steps. Deeper ones are more than the system bears. -/
def run : Nat → Runner
  | 0, _, _ => throw (.killed 11)
  | depth + 1, mode, script => step (run depth) mode script

end Interpreter

end Depot.Host
