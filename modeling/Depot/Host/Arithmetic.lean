import Depot.Host.Shell

/-!
Arithmetic in scripts. An expression is worked out while it is read, so what comes before a fault in
it has had its effect.
-/

namespace Depot.Host.Arithmetic

inductive Operator where
  | mul | div | rem | add | sub | left | right | lt | le | gt | ge | eq | ne | bitAnd | bitXor | bitOr
  deriving DecidableEq

/-- Operators with a smaller number bind closer. -/
def Operator.rank : Operator → Nat
  | .mul | .div | .rem => 0
  | .add | .sub => 1
  | .left | .right => 2
  | .lt | .le | .gt | .ge => 3
  | .eq | .ne => 4
  | .bitAnd => 5
  | .bitXor => 6
  | .bitOr => 7

inductive Token where
  | done
  | bad
  | number (n : Int)
  | name (cs : Octets)
  | op (o : Operator)
  /-- Sets a variable to a value, or to what an operator makes of its old value and that. -/
  | assign (o : Option Operator)
  | and | or | not | bitNot | question | colon | open | close
  deriving DecidableEq

def signs : List (String × Token) :=
  [("<<=", .assign (some .left)), (">>=", .assign (some .right)), ("<<", .op .left),
    (">>", .op .right), ("<=", .op .le), (">=", .op .ge), ("==", .op .eq), ("!=", .op .ne),
    ("&&", .and), ("||", .or), ("*=", .assign (some .mul)), ("/=", .assign (some .div)),
    ("%=", .assign (some .rem)), ("+=", .assign (some .add)), ("-=", .assign (some .sub)),
    ("&=", .assign (some .bitAnd)), ("^=", .assign (some .bitXor)), ("|=", .assign (some .bitOr)),
    ("<", .op .lt), (">", .op .gt), ("=", .assign none), ("&", .op .bitAnd), ("|", .op .bitOr),
    ("^", .op .bitXor), ("*", .op .mul), ("/", .op .div), ("%", .op .rem), ("+", .op .add),
    ("-", .op .sub), ("!", .not), ("~", .bitNot), ("?", .question), (":", .colon), ("(", .open),
    (")", .close)]

def tokens : Nat → Octets → List Token
  | 0, _ => []
  | _ + 1, [] => []
  | fuel + 1, c :: cs =>
    if isBlank c then tokens fuel cs
    else if c.isDigit then
      let r := integerStart true (c :: cs)
      .number r.value :: tokens fuel r.rest
    else if isNameStart c then
      let name := (c :: cs).takeWhile isNameChar
      .name name :: tokens fuel ((c :: cs).drop name.length)
    else match signs.find? fun s => s.1.toList.isPrefixOf (c :: cs) with
      | some (sign, token) => token :: tokens fuel ((c :: cs).drop sign.length)
      | none => [.bad]
where
  isBlank (c : Char) : Bool := c = ' ' || c = '\t' || c = '\n'

/-- What is left of an expression, and the text of all of it. -/
structure Rest where
  tokens : List Token
  text : Octets

abbrev Work := StateT Rest Act

def fail {α : Type} (reason : String) : Work α := do
  let text := (← get).text
  (failWith (octets ("arithmetic expression: " ++ reason ++ ": \"") ++ text ++ ['"']) : Act α)

def peek : Work Token := do return (← get).tokens.headD .done

/-- Passes over a token; what is no token is never passed. -/
def skip : Work Unit := modify fun s =>
  { s with tokens := match s.tokens with
    | .bad :: _ => s.tokens
    | _ => s.tokens.tail }

def truth (b : Bool) : Int := if b then 1 else 0

def bits (n : Int) : Nat := (n % 18446744073709551616).toNat

def apply (o : Operator) (a b : Int) : Work Int :=
  match o with
  | .mul => return wrap (a * b)
  | .div => if b = 0 then fail "division by zero" else return wrap (a.tdiv b)
  | .rem => if b = 0 then fail "division by zero" else return a.tmod b
  | .add => return wrap (a + b)
  | .sub => return wrap (a - b)
  | .left => return wrap (a * (Nat.pow 2 (bits b % 64) : Nat))
  | .right => return a / (Nat.pow 2 (bits b % 64) : Nat)
  | .lt => return truth (a < b)
  | .le => return truth (a ≤ b)
  | .gt => return truth (a > b)
  | .ge => return truth (a ≥ b)
  | .eq => return truth (a = b)
  | .ne => return truth (a ≠ b)
  | .bitAnd => return wrap (bits a &&& bits b : Nat)
  | .bitXor => return wrap (bits a ^^^ bits b : Nat)
  | .bitOr => return wrap (bits a ||| bits b : Nat)

/-- The value of a variable; one that is unset or blank counts as zero. -/
def valueOf (name : Octets) : Act Int := do
  let text := ((← get).var? name).getD []
  let r := integerStart true text
  if r.isTooLarge ∨ (r.hasDigits ∧ dropSpace r.rest ≠ []) ∨ (!r.hasDigits ∧ dropSpace text ≠ []) then
    failWith (octets "Illegal number: " ++ text)
  else return r.value

mutual

/-- An expression that may set a variable; in one that does not count, nothing is set or read. -/
def expression : Nat → Bool → Work Int
  | 0, _ => fail "expecting primary"
  | fuel + 1, counts => do
    match (← get).tokens with
    | .name name :: .assign o :: rest =>
      modify fun s => { s with tokens := rest }
      let value ← expression fuel counts
      if !counts then return value
      let value ← match o with
        | some o => apply o (← valueOf name) value
        | none => pure value
      (setVar name (intDigits value) : Act Unit)
      return value
    | _ => choice fuel counts

def choice : Nat → Bool → Work Int
  | 0, _ => fail "expecting primary"
  | fuel + 1, counts => do
    let test ← disjunction fuel counts
    if (← peek) ≠ .question then return test
    skip
    let yes ← expression fuel (counts && test ≠ 0)
    if (← peek) ≠ .colon then fail "expecting ':'"
    skip
    let no ← choice fuel (counts && test = 0)
    return if test ≠ 0 then yes else no

def disjunction : Nat → Bool → Work Int
  | 0, _ => fail "expecting primary"
  | fuel + 1, counts => do
    let a ← conjunction fuel counts
    if (← peek) ≠ .or then return a
    skip
    let b ← disjunction fuel (counts && a = 0)
    return truth (a ≠ 0 || b ≠ 0)

def conjunction : Nat → Bool → Work Int
  | 0, _ => fail "expecting primary"
  | fuel + 1, counts => do
    let a ← primary fuel counts
    let a ← operations fuel counts a 8
    if (← peek) ≠ .and then return a
    skip
    let b ← conjunction fuel (counts && a ≠ 0)
    return truth (a ≠ 0 && b ≠ 0)

def operations : Nat → Bool → Int → Nat → Work Int
  | 0, _, _, _ => fail "expecting primary"
  | fuel + 1, counts, a, rank => do
    match ← peek with
    | .op o =>
      if o.rank ≥ rank then return a
      skip
      let b ← primary fuel counts
      let b ← operations fuel counts b o.rank
      let a ← if counts then apply o a b else pure b
      operations fuel counts a rank
    | _ => return a

def primary : Nat → Bool → Work Int
  | 0, _ => fail "expecting primary"
  | fuel + 1, counts => do
    let token ← peek
    match token with
    | .open =>
      skip
      let value ← expression fuel counts
      if (← peek) ≠ .close then fail "expecting ')'"
      skip
      return value
    | .number n =>
      skip
      return n
    | .name name =>
      skip
      if counts then (valueOf name : Act Int) else return 0
    | .op .add =>
      skip
      primary fuel counts
    | .op .sub =>
      skip
      return wrap (-(← primary fuel counts))
    | .not =>
      skip
      return truth ((← primary fuel counts) = 0)
    | .bitNot =>
      skip
      return wrap (-(← primary fuel counts) - 1)
    | _ => fail "expecting primary"

end

def value (text : Octets) : Act Int := do
  let tokens := tokens (text.length + 1) text
  let fuel := 12 * (tokens.length + 2)
  let (value, _) ← (do
    let value ← expression fuel true
    if (← peek) ≠ .done then fail "expecting EOF"
    return value : Work Int).run ⟨tokens, text⟩
  return value

end Depot.Host.Arithmetic
