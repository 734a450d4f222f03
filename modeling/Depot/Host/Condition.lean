import Depot.Files.Disk
import Depot.Host.Number

/-! Conditions on texts, numbers and files, as `test` takes them. -/

namespace Depot.Host.Condition

open Files

inductive Token where
  | done
  | operand
  | unary (letter : Char)
  | binary (text : String)
  | not | and | or | open | close
  deriving DecidableEq

def unaryLetters : Octets := "rwxefdcbpugkstznhOGLS".toList

def binaryTexts : List String :=
  ["=", "!=", "<", ">", "-eq", "-ne", "-ge", "-gt", "-le", "-lt", "-nt", "-ot", "-ef"]

def operator? (word : Octets) : Option Token :=
  match word with
  | ['-', 'a'] => some .and
  | ['-', 'o'] => some .or
  | ['-', c] => if unaryLetters.contains c then some (.unary c) else none
  | ['!'] => some .not
  | ['('] => some .open
  | [')'] => some .close
  | word =>
    let text := String.ofList word
    if binaryTexts.contains text then some (.binary text) else none

def tokenOf : List Octets → Token
  | [] => .done
  | word :: rest =>
    match operator? word with
    | none => .operand
    | some (.unary c) =>
      match rest with
      | [] => .operand
      | [_] => .unary c
      | next :: _ =>
        match operator? next with
        | some (.binary _) => .operand
        | _ => .unary c
    | some .open => if rest = [] then .operand else .open
    | some token => token

/-- A condition that cannot be decided, with the reason. -/
abbrev Deciding := Except Octets

def integer (word : Octets) : Deciding Int :=
  match integer? word with
  | some n => .ok n
  | none => .error (octets "Illegal number: " ++ word)

/-- The order of files by time is not known: files are as old as each other. -/
def binary (d : Disk) (a : Octets) (op : String) (b : Octets) : Deciding Bool :=
  let compare (holds : Int → Int → Bool) : Deciding Bool := do
    let x ← integer a
    let y ← integer b
    return holds x y
  let place? (path : Octets) := (d.locate path.toBytes).toOption.map (·.1)
  match op with
  | "=" => return a = b
  | "!=" => return a ≠ b
  | "<" => return a < b
  | ">" => return b < a
  | "-eq" => compare fun x y => x = y
  | "-ne" => compare fun x y => x ≠ y
  | "-ge" => compare fun x y => x ≥ y
  | "-gt" => compare fun x y => x > y
  | "-le" => compare fun x y => x ≤ y
  | "-lt" => compare fun x y => x < y
  | "-nt" => return (place? a).isSome && (place? b).isNone
  | "-ot" => return (place? a).isNone && (place? b).isSome
  | _ => return (place? a).isSome && place? a = place? b

def unary (d : Disk) (letter : Char) (word : Octets) : Deciding Bool :=
  let node? := (d.stat word.toBytes).toOption
  let isLink := match d.lstat word.toBytes with
    | .ok (.link _) => true
    | _ => false
  let hasMode (bits : Nat) := match node? with
    | some (.file mode _) => mode &&& bits ≠ 0
    | some (.dir mode _) => (mode ||| Disk.openMode) &&& bits ≠ 0
    | _ => false
  match letter, node? with
  | 'z', _ => return word = []
  | 'n', _ => return word ≠ []
  | 't', _ => do
    let _ ← integer word
    return false
  | 'h', _ | 'L', _ => return isLink
  | 'r', some (.file ..) => return hasMode Disk.ownerRead
  | 'w', some (.file ..) => return hasMode Disk.ownerWrite
  | 'e', node? | 'r', node? | 'w', node? | 'O', node? | 'G', node? => return node?.isSome
  | 'f', some (.file ..) => return true
  | 'd', some (.dir ..) => return true
  | 'c', some (.special .nullDevice) => return true
  | 'p', some (.special .fifo) => return true
  | 'S', some (.special .socket) => return true
  | 's', some (.file _ data) => return data ≠ []
  | 's', some (.dir ..) => return true
  | 'x', some (.dir ..) => return true
  | 'x', _ => return hasMode Disk.ownerRun
  | 'u', _ => return hasMode 0o4000
  | 'g', _ => return hasMode 0o2000
  | 'k', _ => return hasMode 0o1000
  | _, _ => return false

def wrong {α : Type} (op : Octets) (reason : String) : Deciding α :=
  .error (if op = [] then octets reason else op ++ octets ": " ++ octets reason)

mutual

/-- The words begin with the last word that has been read. So do those that are given back. -/
def disjunction (d : Disk) : Nat → Token → List Octets → Deciding (Bool × List Octets)
  | 0, _, _ => wrong [] "argument expected"
  | fuel + 1, token, words => do
    let (a, words) ← conjunction d fuel token words
    let rest := words.drop 1
    if tokenOf rest = .or then
      let next := rest.drop 1
      let (b, words) ← disjunction d fuel (tokenOf next) next
      return (a || b, words)
    else return (a, words)

def conjunction (d : Disk) : Nat → Token → List Octets → Deciding (Bool × List Octets)
  | 0, _, _ => wrong [] "argument expected"
  | fuel + 1, token, words => do
    let (a, words) ← negation d fuel token words
    let rest := words.drop 1
    if tokenOf rest = .and then
      let next := rest.drop 1
      let (b, words) ← conjunction d fuel (tokenOf next) next
      return (a && b, words)
    else return (a, words)

def negation (d : Disk) : Nat → Token → List Octets → Deciding (Bool × List Octets)
  | 0, _, _ => wrong [] "argument expected"
  | fuel + 1, token, words => do
    if token ≠ .not then primary d fuel token words
    else
      let next := tokenOf (words.drop 1)
      let (a, words) ← negation d fuel next (if next = .done then words else words.drop 1)
      return (!a, words)

def primary (d : Disk) : Nat → Token → List Octets → Deciding (Bool × List Octets)
  | 0, _, _ => wrong [] "argument expected"
  | fuel + 1, token, words => do
    match token with
    | .done => return (false, words)
    | .open =>
      let inner := words.drop 1
      if tokenOf inner = .close then return (false, inner)
      else
        let (a, words) ← disjunction d fuel (tokenOf inner) inner
        let rest := words.drop 1
        if tokenOf rest = .close then return (a, rest) else wrong [] "closing paren expected"
    | .unary letter =>
      match words with
      | _ :: word :: rest => return (← unary d letter word, word :: rest)
      | _ => wrong ['-', letter] "argument expected"
    | _ =>
      match words with
      | a :: op :: rest =>
        match tokenOf (op :: rest) with
        | .binary text =>
          match rest with
          | b :: more => return (← binary d a text b, b :: more)
          | [] => wrong op "argument expected"
        | _ => return (a ≠ [], words)
      | [a] => return (a ≠ [], words)
      | [] => return (false, words)

end

def decideFrom (d : Disk) (token : Token) (words : List Octets) : Deciding Bool := do
  let (a, rest) ← disjunction d (4 * (words.length + 2)) token words
  match rest with
  | word :: _ :: _ => wrong word "unexpected operator"
  | _ => return a

/-- Decides a condition. Few words are taken in the way that makes sense of them; a denial that
follows another there does not take it back. -/
def judge (d : Disk) : Nat → Bool → List Octets → Deciding Bool
  | 0, _, _ => wrong [] "argument expected"
  | _ + 1, _, [] => return false
  | fuel + 1, isDenied, words =>
    let isBinary := match words with
      | [_, op, _] => match operator? op with
        | some (.binary _) => true
        | _ => false
      | _ => false
    let isShort := words.length = 3 || words.length = 4
    let result (token : Token) (words : List Octets) := (fun a => a != isDenied) <$>
      decideFrom d token words
    if isBinary then result .operand words
    else if isShort ∧ words.head? = some ['('] ∧ words.getLast? = some [')'] then
      let words := words.tail.dropLast
      result (tokenOf words) words
    else if isShort ∧ words.head? = some ['!'] then judge d fuel true words.tail
    else result (tokenOf words) words

def holds (d : Disk) (words : List Octets) : Deciding Bool :=
  judge d (words.length + 1) false words

end Depot.Host.Condition
