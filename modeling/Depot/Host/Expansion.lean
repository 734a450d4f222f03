import Depot.Host.Arithmetic
import Depot.Host.Glyph
import Depot.Text.Lines

/-! What the words of a script stand for when they are used. -/

namespace Depot.Host

open Files

/-- Runs a script and gives its output. -/
abbrev Capturer := Script → Act Octets

structure Context where
  capture : Capturer
  /-- Fields are made of the word. -/
  isSplit : Bool := false

/-! Home directories -/

def Shell.home? (sh : Shell) (user : Octets) : Option Octets :=
  if user = [] then sh.var? (octets "HOME")
  else if user = octets "root" then some (octets "/root")
  else none

/-- Texts between colons that may begin with a home directory. -/
def homeParts (home? : Octets → Option Octets) (isLast : Bool) : Bool → List Octets → List Part
  | _, [] => []
  | mayBegin, cs :: rest =>
    let colon (ps : List Part) := if rest = [] then ps else .text [':'] false :: ps
    let more := colon (homeParts home? isLast true rest)
    match cs with
    | '~' :: cs' =>
      let user := cs'.takeWhile (· ≠ '/')
      let isWhole := user.length < cs'.length || rest ≠ [] || isLast
      match if mayBegin ∧ isWhole then home? user else none with
      | some home => .text home true :: .text (cs'.drop user.length) false :: more
      | none => .text cs false :: more
    | cs => .text cs false :: more

/-- Puts home directories in the place of their short names: at the start of a word, and after
colons in a value. -/
def Shell.withHomes (sh : Shell) (isValue : Bool) : Bool → List Part → List Part
  | _, [] => []
  | isFirst, .text cs false :: rest =>
    let texts := if isValue then splitAtSep ':' cs else [cs]
    homeParts sh.home? rest.isEmpty isFirst texts ++
      (if isValue then withHomes sh isValue false rest else rest)
  | _, p :: rest => p :: (if isValue then withHomes sh isValue false rest else rest)

/-! Parameters -/

def Shell.separators (sh : Shell) : Octets := (sh.var? (octets "IFS")).getD [' ', '\t', '\n']

def Shell.allArgs (sh : Shell) (name : Octets) (isSplit isQuoted : Bool) : Glyphs :=
  let ifs? := sh.var? (octets "IFS")
  let gap : Glyphs :=
    if isSplit ∧ isQuoted ∧ name = ['@'] then [.gap]
    else match ifs? with
      | none => [.char ' ' isQuoted]
      | some ifs => if isSplit ∧ !isQuoted then [.gap] else (ifs.take 1).map fun c => .char c isQuoted
  joinWith gap (sh.args.map (Glyphs.ofText isQuoted))

def Shell.param? (sh : Shell) (name : Octets) (isSplit isQuoted : Bool) : Option Glyphs :=
  let text (cs : Octets) := some (Glyphs.ofText isQuoted cs)
  match name with
  | ['?'] => text (digits sh.status)
  | ['$'] => text (digits sh.rootPid)
  | ['#'] => text (digits sh.args.length)
  | ['!'] => sh.lastChild.bind fun pid => text (digits pid)
  | ['-'] => text ("upbaCEVvxsnmiIfe".toList.filter sh.option)
  | ['@'] | ['*'] => some (sh.allArgs name isSplit isQuoted)
  | name =>
    if name.all Char.isDigit then
      match naturalOf name with
      | 0 => text sh.name
      | i + 1 => (sh.args[i]?).bind text
    else (sh.var? name).bind text

/-- A value in a word: split where it stands without quotes. -/
def Shell.valuePieces (sh : Shell) (name : Octets) (isQuoted : Bool) (gs : Glyphs) : List Piece :=
  if !isQuoted then [.loose gs]
  else if name = ['@'] ∧ sh.args ≠ [] then [.args gs]
  else [.fixed gs]

def unset {α : Type} (name : Octets) (reason : Octets) : Act α :=
  failWith (name ++ octets ": " ++ reason)

def demandSet (name : Octets) (value : Option Glyphs) : Act Unit := do
  if value.isNone ∧ (← get).option 'u' then unset name (octets "parameter not set")

def isMissing (orEmpty : Bool) : Option Glyphs → Bool
  | none => true
  | some gs => orEmpty && gs = []

mutual

def expandParts (cx : Context) (inUse : Bool) : List Part → Act (List Piece)
  | [] => return []
  | p :: ps => do
    let first ← expandPart cx inUse p
    return first ++ (← expandParts cx inUse ps)

def expandPart (cx : Context) (inUse : Bool) : Part → Act (List Piece)
  | .text cs q => do
    if !inUse ∨ q then return [.fixed (Glyphs.ofText q cs)]
    else
      let sh ← get
      match homeParts sh.home? true true [cs] with
      | .text home true :: .text rest false :: _ =>
        return [.fixed (Glyphs.ofText true home), .loose (Glyphs.ofText false rest)]
      | _ => return [.loose (Glyphs.ofText false cs)]
  | .quotes => return [.fixed [.mark]]
  | .eachArg => do
    let sh ← get
    return sh.valuePieces ['@'] true (sh.allArgs ['@'] cx.isSplit true)
  | .output script q => do
    let text ← cx.capture script
    let gs := Glyphs.ofText q text
    return [if q then .fixed gs else .loose gs]
  | .arithmetic expr q => do
    let text := textOf (← expandParts { cx with isSplit := false } false expr)
    let gs := Glyphs.ofText q (intDigits (← Arithmetic.value text))
    return [if q then .fixed gs else .loose gs]
  | .param name u q => expandUse cx name q u

def expandUse (cx : Context) (name : Octets) (q : Bool) : Use → Act (List Piece)
  | .plain => do
    let sh ← get
    let value := sh.param? name cx.isSplit q
    demandSet name value
    return (value.map (sh.valuePieces name q)).getD []
  | .length => do
    let sh ← get
    let value := sh.param? name cx.isSplit q
    demandSet name value
    let gs := Glyphs.ofText q (digits ((value.map List.length).getD 0))
    return [if q then .fixed gs else .loose gs]
  | .malformed => failWith (octets "Bad substitution")
  | .instead orEmpty word => do
    let sh ← get
    let value := sh.param? name cx.isSplit q
    if isMissing orEmpty value then expandParts cx true word
    else return sh.valuePieces name q (value.getD [])
  | .unless orEmpty word => do
    let sh ← get
    if isMissing orEmpty (sh.param? name cx.isSplit q) then return [.loose []]
    else expandParts cx true word
  | .assign orEmpty word => do
    let sh ← get
    let value := sh.param? name cx.isSplit q
    if isMissing orEmpty value then
      let text := textOf (← expandParts { cx with isSplit := false } true word)
      setVar name text
      return sh.valuePieces name q (Glyphs.ofText q text)
    else return sh.valuePieces name q (value.getD [])
  | .demand orEmpty word => do
    let sh ← get
    let value := sh.param? name cx.isSplit q
    if isMissing orEmpty value then
      let text := textOf (← expandParts { cx with isSplit := false } true word)
      if word.isEmpty then
        unset name (octets (if orEmpty then "parameter not set or null" else "parameter not set"))
      else unset name text
    else return sh.valuePieces name q (value.getD [])
  | .trim isEnd isLongest pattern => do
    let sh ← get
    let value := sh.param? name cx.isSplit q
    demandSet name value
    match value with
    | none => return []
    | some gs =>
      let ps ← expandParts { cx with isSplit := false } true pattern
      let glob := Glyphs.glob (ps.flatMap Piece.glyphs)
      return sh.valuePieces name q (trimmed isEnd isLongest glob gs)

end

/-! Names -/

/-- The first glyphs up to a slash, and those from the slash on. -/
def firstName (gs : Glyphs) : Glyphs × Glyphs :=
  let name := gs.takeWhile fun
    | .char c _ => c ≠ '/'
    | _ => true
  (name, gs.drop name.length)

/-- The paths that a pattern matches, below one that has been built. -/
def matchNames (d : Disk) : Nat → Octets → Glyphs → List Octets
  | 0, _, _ => []
  | fuel + 1, built, gs =>
    let (name, rest) := firstName gs
    if hasWildcard name then
      let path : Octets := if built = [] then ['.'] else built
      let names : List Octets := match d.stat path.toBytes with
        | .ok (.dir _ es) => octets "." :: octets ".." :: es.map fun e => Octets.ofBytes e.1
        | _ => []
      let isHidden := (Glyphs.text name).head? = some '.'
      let glob := Glyphs.glob name
      let names := names.filter fun n =>
        (isHidden || n.head? ≠ some '.') && glob.doesMatch false n
      match rest with
      | [] => names.map (built ++ ·)
      | _ :: rest => names.flatMap fun n => matchNames d fuel (built ++ n ++ ['/']) rest
    else
      let built : Octets := built ++ Glyphs.text name
      match rest with
      | [] => if (d.lstat built.toBytes).toOption.isSome then [built] else []
      | _ :: rest => matchNames d fuel (built ++ ['/']) rest

def sortNames (names : List Octets) : List Octets := names.mergeSort fun a b => !decide (b < a)

/-- The names that a field stands for: those that it matches, or itself. -/
def Shell.namesOf (sh : Shell) (gs : Glyphs) : List Octets :=
  if sh.option 'f' ∨ !hasWildcard gs then [Glyphs.text gs]
  else
    let settled := settleSlashes gs
    match matchNames sh.disk (settled.length + 1) [] settled with
    | [] => [Glyphs.text gs]
    | names => sortNames names

/-! Words -/

def expandFields (capture : Capturer) (w : Word) : Act (List Octets) := do
  let ps ← expandParts ⟨capture, true⟩ false ((← get).withHomes false true w)
  let sh ← get
  return (fieldsOf sh.separators false [] ps).flatMap sh.namesOf

def expandAll (capture : Capturer) : List Word → Act (List Octets)
  | [] => return []
  | w :: ws => do
    let first ← expandFields capture w
    return first ++ (← expandAll capture ws)

def expandText (capture : Capturer) (isValue : Bool) (w : Word) : Act Octets := do
  return textOf (← expandParts ⟨capture, false⟩ false ((← get).withHomes isValue true w))

def expandDocument (capture : Capturer) (w : Word) : Act Octets := do
  return textOf (← expandParts ⟨capture, false⟩ false w)

def expandGlob (capture : Capturer) (w : Word) : Act Glob := do
  let ps ← expandParts ⟨capture, false⟩ false ((← get).withHomes false true w)
  return Glyphs.glob (ps.flatMap Piece.glyphs)

end Depot.Host
