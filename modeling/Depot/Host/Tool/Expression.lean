import Depot.Host.Regex
import Depot.Host.Tool

/-! Expressions of texts and integers, as `expr` works them out. -/

namespace Depot.Host.Tool.Expression

inductive Value where
  | text (cs : Octets)
  | integer (n : Int)

def Value.shown : Value → Octets
  | .text cs => cs
  | .integer n => intDigits n

def integerOf? (cs : Octets) : Option Int :=
  let (isNegative, ds) := match cs with
    | '-' :: ds => (true, ds)
    | ds => (false, ds)
  if ds = [] ∨ !(ds.all Char.isDigit) then none
  else some (if isNegative then -(naturalOf ds : Int) else naturalOf ds)

def Value.integer? : Value → Option Int
  | .integer n => some n
  | .text cs => integerOf? cs

/-- The value is empty or zero. -/
def Value.isNull : Value → Bool
  | .integer n => n = 0
  | .text cs => cs = [] || (let ds := if cs.head? = some '-' then cs.tail else cs
    ds ≠ [] && ds.all (· = '0'))

abbrev Reading := StateT (List Octets × Octets) (Except (Octets × Nat))

def fail {α : Type} (text : Octets) (status : Nat := 2) : Reading α := throw (text, status)

def peek : Reading (Option Octets) := do return (← get).1.head?

def take : Reading Octets := do
  let (words, last) ← get
  match words with
  | word :: rest =>
    set (rest, word)
    return word
  | [] => fail (octets "syntax error: missing argument after " ++ inQuotes last)

def takeOf (allowed : List String) : Reading (Option String) := do
  match ← peek with
  | some word =>
    let text := String.ofList word
    if allowed.contains text then
      let _ ← take
      return some text
    else return none
  | none => return none

def demandInteger (v : Value) : Reading Int :=
  match v.integer? with
  | some n => return n
  | none => fail (octets "non-integer argument")

/-- Matches a text from its start: what the first group has matched, or the length. -/
def matched (text pattern : Octets) : Reading Value :=
  match Regex.parse {} pattern with
  | .error reason => fail (octets reason)
  | .ok (r, groups) =>
    let cs := text.toArray
    let fuel := 100 * (cs.size + 100)
    match Regex.matchAt {} cs fuel r 0 [] fun j gs => some (j, gs) with
    | some (j, gs) =>
      return if groups > 0 then .text (Regex.groupText cs gs 1) else .integer j
    | none => return if groups > 0 then .text [] else .integer 0

def compareWith (op : String) (a b : Value) : Value :=
  let order := match a.integer?, b.integer? with
    | some x, some y => compare x y
    | _, _ =>
      let (s, t) := (a.shown, b.shown)
      if s < t then .lt else if t < s then .gt else .eq
  let holds : Bool := match op with
    | "<" => order = .lt
    | "<=" => order ≠ .gt
    | "=" | "==" => order = .eq
    | "!=" => order ≠ .eq
    | ">=" => order ≠ .lt
    | _ => order = .gt
  .integer (if holds then 1 else 0)

mutual

def disjunction : Nat → Bool → Reading Value
  | 0, _ => fail (octets "syntax error")
  | fuel + 1, counts => do moreDisjunction fuel counts (← conjunction fuel counts)

def moreDisjunction : Nat → Bool → Value → Reading Value
  | 0, _, a => return a
  | fuel + 1, counts, a => do
    match ← takeOf ["|"] with
    | none => return a
    | some _ =>
      let b ← conjunction fuel (counts && a.isNull)
      let value := if !a.isNull then a else if b.isNull then .integer 0 else b
      moreDisjunction fuel counts value

def conjunction : Nat → Bool → Reading Value
  | 0, _ => fail (octets "syntax error")
  | fuel + 1, counts => do moreConjunction fuel counts (← comparison fuel counts)

def moreConjunction : Nat → Bool → Value → Reading Value
  | 0, _, a => return a
  | fuel + 1, counts, a => do
    match ← takeOf ["&"] with
    | none => return a
    | some _ =>
      let b ← comparison fuel (counts && !a.isNull)
      moreConjunction fuel counts (if a.isNull ∨ b.isNull then .integer 0 else a)

def comparison : Nat → Bool → Reading Value
  | 0, _ => fail (octets "syntax error")
  | fuel + 1, counts => do moreComparison fuel counts (← sum fuel counts)

def moreComparison : Nat → Bool → Value → Reading Value
  | 0, _, a => return a
  | fuel + 1, counts, a => do
    match ← takeOf ["<", "<=", "=", "==", "!=", ">=", ">"] with
    | none => return a
    | some op =>
      let b ← sum fuel counts
      moreComparison fuel counts (compareWith op a b)

def sum : Nat → Bool → Reading Value
  | 0, _ => fail (octets "syntax error")
  | fuel + 1, counts => do moreSum fuel counts (← product fuel counts)

def moreSum : Nat → Bool → Value → Reading Value
  | 0, _, a => return a
  | fuel + 1, counts, a => do
    match ← takeOf ["+", "-"] with
    | none => return a
    | some op =>
      let b ← product fuel counts
      if !counts then moreSum fuel counts a
      else
        let x ← demandInteger a
        let y ← demandInteger b
        moreSum fuel counts (.integer (if op = "+" then x + y else x - y))

def product : Nat → Bool → Reading Value
  | 0, _ => fail (octets "syntax error")
  | fuel + 1, counts => do moreProduct fuel counts (← colon fuel counts)

def moreProduct : Nat → Bool → Value → Reading Value
  | 0, _, a => return a
  | fuel + 1, counts, a => do
    match ← takeOf ["*", "/", "%"] with
    | none => return a
    | some op =>
      let b ← colon fuel counts
      if !counts then moreProduct fuel counts a
      else
        let x ← demandInteger a
        let y ← demandInteger b
        if op ≠ "*" ∧ y = 0 then fail (octets "division by zero")
        moreProduct fuel counts
          (.integer (if op = "*" then x * y else if op = "/" then x.tdiv y else x.tmod y))

def colon : Nat → Bool → Reading Value
  | 0, _ => fail (octets "syntax error")
  | fuel + 1, counts => do moreColon fuel counts (← call fuel counts)

def moreColon : Nat → Bool → Value → Reading Value
  | 0, _, a => return a
  | fuel + 1, counts, a => do
    match ← takeOf [":"] with
    | none => return a
    | some _ =>
      let b ← call fuel counts
      if !counts then moreColon fuel counts a
      else moreColon fuel counts (← matched a.shown b.shown)

def call : Nat → Bool → Reading Value
  | 0, _ => fail (octets "syntax error")
  | fuel + 1, counts => do
    match ← takeOf ["+", "length", "match", "index", "substr"] with
    | some "+" => return .text (← take)
    | some "length" => return .integer (← call fuel counts).shown.length
    | some "match" =>
      let a ← call fuel counts
      let b ← call fuel counts
      if counts then matched a.shown b.shown else return a
    | some "index" =>
      let a ← call fuel counts
      let b ← call fuel counts
      let place := a.shown.findIdx? fun c => b.shown.contains c
      return .integer (match place with
        | some i => i + 1
        | none => 0)
    | some _ =>
      let a ← call fuel counts
      let i ← call fuel counts
      let n ← call fuel counts
      match i.integer?, n.integer? with
      | some i, some n =>
        return .text (if i < 1 ∨ n < 1 then [] else (a.shown.drop (i.toNat - 1)).take n.toNat)
      | _, _ => return .text []
    | none => primary fuel counts

def primary : Nat → Bool → Reading Value
  | 0, _ => fail (octets "syntax error")
  | fuel + 1, counts => do
    match ← takeOf ["("] with
    | some _ =>
      let value ← disjunction fuel counts
      match ← peek with
      | none => fail (octets "syntax error: expecting ')' after " ++ inQuotes (← get).2)
      | some [')'] =>
        let _ ← take
        return value
      | some word => fail (octets "syntax error: expecting ')' instead of " ++ inQuotes word)
    | none =>
      if (← peek) = some [')'] then fail (octets "syntax error: unexpected ')'")
      return .text (← take)

end

end Depot.Host.Tool.Expression

namespace Depot.Host.Tool

open Expression in
/-- Prints the value of an expression; it fails if the value is empty or zero. -/
def expression : Work Unit := do
  let args := (← read).args
  let args := if args.head? = some ['-', '-'] then args.tail else args
  if args = [] then Work.misused (octets "missing operand") 2
  match (disjunction (20 * (args.length + 2)) true).run (args, []) with
  | .error (text, status) => Work.die text status
  | .ok (value, ([], _)) =>
    Work.putLine value.shown
    modify fun b => { b with status := if value.isNull then 1 else 0 }
  | .ok (_, (word :: _, _)) =>
    Work.die (octets "syntax error: unexpected argument " ++ inQuotes word) 2

end Depot.Host.Tool
