import Depot.Pairs

/-!
Command lines: what a command takes, and reading words by that. Options are known by their long
names. A value in a word of its own, or an operand, waits until the next one comes or the words
end, and is judged only then; so a command below is read before what waits above it is judged.
-/

namespace Depot.Cli

/-- The values that an option takes. -/
inductive ValueRule where
  | any
  | notEmpty
  | oneOf (values : List String)
  deriving DecidableEq, Repr

def ValueRule.accepts : ValueRule → String → Bool
  | any, _ => true
  | notEmpty, s => s ≠ ""
  | oneOf values, s => s ∈ values

inductive OptionKind where
  /-- Given once at most, without a value. -/
  | flag
  /-- Given any number of times, without a value. -/
  | count
  | value (rule : ValueRule)
  | help
  | version
  deriving DecidableEq, Repr

structure OptionRule where
  name : String
  letter : Option Char := none
  kind : OptionKind
  deriving DecidableEq, Repr

/-- A word that belongs to no option. -/
structure Operand where
  name : String
  /-- It takes all words after `--`, and only those. -/
  isRest : Bool := false
  deriving DecidableEq, Repr

/-- What a command takes. Every operand must be given. -/
inductive Grammar where
  | command (name : String) (options : List OptionRule) (operands : List Operand)
    (needsChild : Bool) (children : List Grammar)

/-- Why a command line is not carried out. -/
inductive UsageError where
  /-- Help was asked for on the command that these names lead to. -/
  | help (path : List String)
  | version (path : List String)
  | helpForNothing
  | missingCommand
  | unknownCommand
  | unknownArgument
  | invalidValue
  | tooManyValues
  | repeated
  | missingOperand
  deriving DecidableEq, Repr

def UsageError.code : UsageError → Nat
  | help _ | version _ => 0
  | _ => 2

namespace Grammar

def name : Grammar → String
  | command name .. => name

def options : Grammar → List OptionRule
  | command _ options .. => options

def operands : Grammar → List Operand
  | command _ _ operands .. => operands

def needsChild : Grammar → Bool
  | command _ _ _ needsChild _ => needsChild

def children : Grammar → List Grammar
  | command _ _ _ _ children => children

def option? (g : Grammar) (name : String) : Option OptionRule :=
  g.options.find? fun o => o.name = name

def letter? (g : Grammar) (c : Char) : Option OptionRule :=
  g.options.find? fun o => o.letter = some c

def ruleOf (g : Grammar) (name : String) : ValueRule :=
  match (g.option? name).map OptionRule.kind with
  | some (.value rule) => rule
  | _ => .any

/-- What a word means where a command may stand. -/
inductive Child where
  | command (g : Grammar)
  | help

/-- The command of a name. Wherever there are commands, there is one for help. -/
def child? (g : Grammar) (word : String) : Option Child :=
  match g.children.find? fun c => c.name = word with
  | some c => some (.command c)
  | none => if g.children.isEmpty = false ∧ word = "help" then some .help else none

/-- What the words after a help command ask for. -/
def helpFor : List String → List String → Grammar → UsageError
  | path, [], _ => .help path
  | path, word :: words, g =>
    match g.child? word with
    | some (.command c) => helpFor (path ++ [word]) words c
    | some .help => if words = [] then .help (path ++ [word]) else .unknownCommand
    | none => .unknownCommand

end Grammar

/-- What was read of one command. -/
structure Level where
  /-- The names that lead to the command. -/
  path : List String
  values : List (String × List String) := []
  /-- How often options without values were given. -/
  counts : List (String × Nat) := []
  /-- Values that the environment gives for options that were not given. -/
  ambient : List (String × String) := []
  /-- What waits to be judged. -/
  waiting : Option (String × List String) := none
  /-- The option that waits has no value yet. -/
  isOpen : Bool := false
  /-- All words are operands from here on. -/
  isTrailing : Bool := false
  /-- The number of operands so far. -/
  position : Nat := 0
  deriving DecidableEq, Repr

namespace Level

/-- The most often that an option counts. -/
def countLimit : Nat := 255

def take (g : Grammar) (name : String) (vs : List String) (lv : Level) : Except UsageError Level :=
  if vs = [] then .error .invalidValue
  else if (assoc? name lv.values).isSome then .error .repeated
  else if vs.all (g.ruleOf name).accepts then
    .ok { lv with values := assocSet name vs lv.values }
  else .error .invalidValue

def settle (g : Grammar) (lv : Level) : Except UsageError Level :=
  match lv.waiting with
  | none => .ok lv
  | some (name, vs) => take g name vs { lv with waiting := none }

/-- Takes an option that has no value. -/
def mark (g : Grammar) (o : OptionRule) (lv : Level) : Except UsageError Level := do
  let lv ← lv.settle g
  let lv := { lv with isOpen := false }
  match o.kind with
  | .help => .error (.help lv.path)
  | .version => .error (.version lv.path)
  | .count =>
    let n := (assoc? o.name lv.counts).getD 0
    .ok { lv with counts := assocSet o.name (min (n + 1) countLimit) lv.counts }
  | _ =>
    if (assoc? o.name lv.counts).isSome then .error .repeated
    else .ok { lv with counts := assocSet o.name 1 lv.counts }

/-- Takes an option that has a value, in the same word or in the next one. -/
def give (g : Grammar) (o : OptionRule) (value? : Option String) (lv : Level) :
    Except UsageError Level := do
  let lv ← lv.settle g
  match value? with
  | some v => take g o.name [v] { lv with isOpen := false }
  | none => .ok { lv with waiting := some (o.name, []), isOpen := true }

/-- Takes an option by its long name. -/
def long (g : Grammar) (name : String) (value? : Option String) (lv : Level) :
    Except UsageError Level :=
  match g.option? name with
  | none => .error .unknownArgument
  | some o =>
    match o.kind with
    | .value _ => lv.give g o value?
    | _ => if value?.isSome then .error .tooManyValues else lv.mark g o

/-- Takes a word of options by their letters. The first that has a value takes the rest. -/
def letters (g : Grammar) : List Char → Level → Except UsageError Level
  | [], lv => .ok lv
  | c :: cs, lv =>
    match g.letter? c with
    | none => .error .unknownArgument
    | some o =>
      match o.kind with
      | .value _ =>
        lv.give g o (match cs with
          | [] => none
          | '=' :: cs => some (String.ofList cs)
          | cs => some (String.ofList cs))
      | _ => do letters g cs (← lv.mark g o)

def operand (g : Grammar) (word : String) (lv : Level) : Except UsageError Level :=
  let hasRest := g.operands.any (·.isRest)
  let i := if lv.isTrailing && hasRest then g.operands.length - 1 else lv.position
  match g.operands[i]? with
  | some o =>
    if o.isRest then
      if !lv.isTrailing then .error .unknownArgument
      else match lv.waiting with
        | some (name, vs) =>
          if name = o.name then .ok { lv with waiting := some (name, vs ++ [word]) }
          else do
            let lv ← lv.settle g
            .ok { lv with waiting := some (o.name, [word]) }
        | none => .ok { lv with waiting := some (o.name, [word]) }
    else do
      let lv ← lv.settle g
      .ok { lv with waiting := some (o.name, [word]), position := i + 1, isOpen := false }
  | none =>
    if lv.isTrailing ∧ (g.child? word).isSome then .error .unknownArgument
    else if g.children.isEmpty = false ∧ g.operands = [] then .error .unknownCommand
    else .error .unknownArgument

/-- Takes a word that is neither a command nor `--`. -/
def word (g : Grammar) (w : String) (lv : Level) : Except UsageError Level :=
  match w.toList with
  | '-' :: '-' :: cs =>
    let name := cs.takeWhile (· ≠ '=')
    lv.long g (String.ofList name) (match cs.drop name.length with
      | [] => none
      | _ :: value => some (String.ofList value))
  | '-' :: c :: cs => lv.letters g (c :: cs)
  | _ =>
    match lv.isOpen, lv.waiting with
    | true, some (name, vs) => .ok { lv with waiting := some (name, vs ++ [w]), isOpen := false }
    | _, _ => lv.operand g w

/-- Adds what the environment gives for options that were not given. -/
def addAmbient (g : Grammar) : List (String × String) → Level → Except UsageError Level
  | [], lv => .ok lv
  | (name, value) :: rest, lv =>
    if (assoc? name lv.values).isSome then addAmbient g rest lv
    else if (g.ruleOf name).accepts value then
      addAmbient g rest { lv with ambient := lv.ambient ++ [(name, value)] }
    else .error .invalidValue

def isBare (lv : Level) : Bool := lv.values.isEmpty && lv.counts.isEmpty && lv.ambient.isEmpty

def finish (ambient : List (String × String)) (g : Grammar) (hasChild : Bool) (lv : Level) :
    Except UsageError Level := do
  let lv ← lv.settle g
  let lv ← lv.addAmbient g ambient
  if !hasChild && g.needsChild then
    .error (if lv.isBare then .helpForNothing else .missingCommand)
  else if g.operands.all fun o => (assoc? o.name lv.values).isSome then .ok lv
  else .error .missingOperand

/-- Reads the words of a command and of those below it, from the outermost on. -/
def read (ambient : List (String × String)) :
    List String → Grammar → Level → Except UsageError (List Level)
  | [], g, lv => do return [← lv.finish ambient g false]
  | w :: ws, g, lv =>
    if lv.isTrailing then do read ambient ws g (← lv.operand g w)
    else match if lv.isOpen then none else g.child? w with
      | some .help => .error (g.helpFor lv.path ws)
      | some (.command c) => do
        let below ← read ambient ws c { path := lv.path ++ [w] }
        return (← lv.finish ambient g true) :: below
      | none =>
        if w = "--" then read ambient ws g { lv with isTrailing := true }
        else do read ambient ws g (← lv.word g w)

def value? (lv : Level) (name : String) : Option String := (assoc? name lv.values).bind List.head?

end Level

end Depot.Cli
