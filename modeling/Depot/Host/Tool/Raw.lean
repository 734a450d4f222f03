import Depot.Digest.Md5
import Depot.Digest.Sha1
import Depot.Host.Tool.Files
import Depot.Host.Tool.Lines
import Depot.Text.Utf8

/-! Tools that look at texts byte by byte. -/

namespace Depot.Host.Tool

open Files

/-! Dumps -/

/-- How the bytes of a dump are shown: in characters, by names, or as numbers of some bytes in a
base. -/
inductive DumpKind where
  | chars
  | names
  | number (isSigned : Bool) (base size : Nat)

/-- A line of a dump for each block of bytes. -/
structure DumpRules where
  kind : DumpKind
  /-- The characters stand at the end of the line, too. -/
  hasText : Bool := false

namespace DumpRules

def size (r : DumpRules) : Nat :=
  match r.kind with
  | .number _ _ size => size
  | _ => 1

/-- The width of a field, without the blank before it. -/
def width (r : DumpRules) : Nat :=
  match r.kind with
  | .chars | .names => 3
  | .number isSigned base size =>
    let largest := Nat.pow 256 size - 1
    if isSigned then (inBase 10 (largest / 2)).length + 1 else (inBase base largest).length

def controlNames : List String :=
  ["nul", "soh", "stx", "etx", "eot", "enq", "ack", "bel", "bs", "ht", "nl", "vt", "ff", "cr", "so",
    "si", "dle", "dc1", "dc2", "dc3", "dc4", "nak", "syn", "etb", "can", "em", "sub", "esc", "fs",
    "gs", "rs", "us", "sp"]

def field (r : DumpRules) (cs : Octets) : Octets :=
  match r.kind with
  | .chars =>
    match cs.headD ' ' with
    | '\x00' => ['\\', '0']
    | c => match controlLetter? c with
      | some letter => ['\\', letter]
      | none => if isPrintable c then [c] else octalCode c
  | .names =>
    let n := (cs.headD ' ').toNat % 128
    if n = 127 then octets "del"
    else match controlNames[n]? with
      | some name => octets name
      | none => [Char.ofNat n]
  | .number isSigned base size =>
    let n := cs.reverse.foldl (fun n c => n * 256 + c.toNat) 0
    let whole := Nat.pow 256 size
    if isSigned then intDigits (if 2 * n ≥ whole then (n : Int) - whole else n)
    else
      let ds := inBase base n
      if base = 10 then ds else List.replicate (r.width - ds.length) '0' ++ ds

end DumpRules

def blocksOf (length : Nat) : Nat → Octets → List Octets
  | 0, _ => []
  | _, [] => []
  | fuel + 1, cs => cs.take length :: blocksOf length fuel (cs.drop length)

/-- A line for a block: fields up to the width of the widest line. -/
def dumpLine (r : DumpRules) (length widest : Nat) (block : Octets) : Octets :=
  let count := length / r.size
  let pad := widest - count * (r.width + 1)
  let parts := blocksOf r.size (block.length + 1) block
  let fields := parts.zipIdx.flatMap fun (part, i) =>
    let left := pad * (count - i) / count
    let next := pad * (count - i - 1) / count
    ' ' :: atRight (left - next + r.width) (r.field part)
  if r.hasText then
    let missing := count - parts.length
    fields ++ List.replicate (missing * (r.width + 1) + pad * missing / count) ' ' ++ octets "  >" ++
      block.map (fun c => if isPrintable c then c else '.') ++ ['<']
  else fields

def dumpKinds : Nat → Octets → Except Octets (List DumpRules)
  | 0, _ => .ok []
  | _, [] => .ok []
  | fuel + 1, c :: cs => do
    let sized (natural : Nat) (kind : Nat → DumpKind) : DumpKind × Octets :=
      match cs with
      | 'C' :: cs => (kind 1, cs)
      | 'S' :: cs => (kind 2, cs)
      | 'I' :: cs => (kind 4, cs)
      | 'L' :: cs => (kind 8, cs)
      | cs =>
        let ds := cs.takeWhile Char.isDigit
        (kind (if ds = [] then natural else naturalOf ds), cs.drop ds.length)
    let (kind, rest) ← match c with
      | 'c' => pure (DumpKind.chars, cs)
      | 'a' => pure (DumpKind.names, cs)
      | 'd' => pure (sized 4 fun n => .number true 10 n)
      | 'o' => pure (sized 4 fun n => .number false 8 n)
      | 'u' => pure (sized 4 fun n => .number false 10 n)
      | 'x' => pure (sized 4 fun n => .number false 16 n)
      | c => throw (octets "invalid character '" ++ [c] ++ octets "' in type string ")
    match kind with
    | .number _ _ n => if n ∉ [1, 2, 4, 8] then
        throw (octets "invalid type string ")
    | _ => pure ()
    let (hasText, rest) := match rest with
      | 'z' :: rest => (true, rest)
      | rest => (false, rest)
    return ⟨kind, hasText⟩ :: (← dumpKinds fuel rest)

def dump : Work Unit := do
  let o ← Options.read "A:abcdfhij:lN:ost:vx" [.valued 'A' "address-radix", .valued 't' "format",
    .valued 'j' "skip-bytes", .valued 'N' "read-bytes", .flag 'v' "output-duplicates",
    .loose 'w' "width"]
    ((← read).args.map fun a => match a with
      | '-' :: 'w' :: ds => octets "--width=" ++ ds
      | a => a)
  let radix ← match o.value? 'A' with
    | none => pure 'o'
    | some [c] =>
      if c ∈ ['d', 'o', 'x', 'n'] then pure c
      else Work.die (octets "invalid output address radix '" ++ [c] ++
        octets "'; it must be one character from [doxn]")
    | some cs => Work.die (octets "invalid output address radix '" ++ cs ++
        octets "'; it must be one character from [doxn]")
  let mut rules : List DumpRules := []
  for (c, value) in o.found do
    let kinds := match c with
      | 't' => value
      | 'a' => ['a']
      | 'b' => octets "o1"
      | 'c' => ['c']
      | 'd' => octets "u2"
      | 'i' => octets "d4"
      | 'l' => octets "d8"
      | 'o' => octets "o2"
      | 's' => octets "d2"
      | 'x' | 'h' => octets "x2"
      | _ => []
    match dumpKinds (kinds.length + 1) kinds with
    | .ok more => rules := rules ++ more
    | .error reason => Work.die (reason ++ inQuotes kinds)
  if rules.isEmpty then rules := [⟨.number false 8 2, false⟩]
  let text ← allText o.operands
  if (← get).status ≠ 0 ∧ o.operands.length = 1 then return ()
  let skipped := ((o.value? 'j').map naturalOf).getD 0
  let text := text.drop skipped
  let text := match o.value? 'N' with
    | some n => text.take (naturalOf n)
    | none => text
  let length := match o.value? 'w' with
    | none => 16
    | some ds => if ds = [] then 32 else naturalOf ds
  let widest := ((rules.map fun r => length / r.size * (r.width + 1)).max?).getD 0
  let address (n : Nat) : Octets :=
    match radix with
    | 'n' => []
    | 'd' => padded 7 (inBase 10 n)
    | 'x' => padded 6 (inBase 16 n)
    | _ => padded 7 (inBase 8 n)
  let blank := List.replicate (address 0).length ' '
  let mut previous : Option Octets := none
  let mut hasStar := false
  for (block, i) in (blocksOf length (text.length + 1) text).zipIdx do
    if previous = some block ∧ !o.has 'v' ∧ block.length = length then
      if !hasStar then Work.put ['*', '\n']
      hasStar := true
    else
      hasStar := false
      for (r, k) in rules.zipIdx do
        Work.putLine ((if k = 0 then address (skipped + i * length) else blank) ++
          dumpLine r length widest block)
    previous := some block
  if radix ≠ 'n' then Work.putLine (address (skipped + text.length))
where
  padded (width : Nat) (ds : Octets) : Octets := List.replicate (width - ds.length) '0' ++ ds

/-! Sums -/

/-- A name of a file in a line where a backslash before it marks escapes in it. -/
def escapedName (name : Octets) : Octets :=
  name.flatMap fun c =>
    if c = '\\' then ['\\', '\\'] else if c = '\n' then ['\\', 'n']
    else if c = '\x0d' then ['\\', 'r'] else [c]

def sums (digest : Bytes → Bytes) (kind : String) : Work Unit := do
  let call ← read
  let o ← Options.read "bctwz" [.flag 'c' "check", .flag 'b' "binary", .flag 't' "text",
    .flag 'T' "tag", .flag 'q' "quiet", .flag 's' "status", .flag 'i' "ignore-missing",
    .flag 'S' "strict", .flag 'w' "warn", .flag 'z' "zero"] call.args
  let hash (text : Octets) : Octets := Hex.encode (digest text.toBytes)
  if o.has 'c' then
    let size := (digest []).length * 2
    for list in filesOf o.operands do
      match ← Work.text list with
      | .error reason => Work.warn (nameShown list ++ octets ": " ++ reason)
      | .ok text =>
        let mut malformed := 0
        let mut unread := 0
        let mut wrong := 0
        let mut right := 0
        for line in bareLines text do
          let sum := line.takeWhile fun c => (digitValue? 16 c).isSome
          match line.drop sum.length with
          | ' ' :: mark :: name =>
            if sum.length = size ∧ (mark = ' ' ∨ mark = '*') ∧ name ≠ [] then
              match ← Work.text name with
              | .ok text =>
                if hash text = sum.map Char.toLower then
                  right := right + 1
                  if !o.has 'q' ∧ !o.has 's' then Work.putLine (name ++ octets ": OK")
                else
                  wrong := wrong + 1
                  if !o.has 's' then Work.putLine (name ++ octets ": FAILED")
              | .error reason =>
                if !(o.has 'i') then
                  unread := unread + 1
                  Work.warn (nameShown name ++ octets ": " ++ reason)
                  if !o.has 's' then Work.putLine (name ++ octets ": FAILED open or read")
            else malformed := malformed + 1
          | _ => malformed := malformed + 1
        if right + wrong + unread = 0 then
          Work.warn (nameShown list ++ octets ": no properly formatted checksum lines found")
        else
          if malformed > 0 ∧ !o.has 's' then
            remark malformed " line is improperly formatted" " lines are improperly formatted"
          if unread > 0 ∧ !o.has 's' then
            remark unread " listed file could not be read" " listed files could not be read"
          if wrong > 0 ∧ !o.has 's' then
            remark wrong " computed checksum did NOT match" " computed checksums did NOT match"
          if wrong + unread > 0 then modify fun b => { b with status := 1 }
  else
    for file in filesOf o.operands do
      match ← Work.text file with
      | .error reason => Work.warn (nameShown file ++ octets ": " ++ reason)
      | .ok text =>
        let shown := escapedName file
        let mark := if shown = file ∨ o.has 'z' then [] else ['\\']
        let shown := if o.has 'z' then file else shown
        let line := if o.has 'T' then mark ++ octets kind ++ octets " (" ++ shown ++ octets ") = " ++ hash text
          else mark ++ hash text ++ [' ', if o.has 'b' then '*' else ' '] ++ shown
        Work.put (line ++ [if o.has 'z' then '\x00' else '\n'])
where
  remark (n : Nat) (one many : String) : Work Unit := do
    Work.putError ((← read).name ++ octets ": WARNING: " ++ digits n ++
      octets (if n = 1 then one else many) ++ ['\n'])

/-! Text for bytes -/

def base64Letters : Octets :=
  "ABCDEFGHIJKLMNOPQRSTUVWXYZabcdefghijklmnopqrstuvwxyz0123456789+/".toList

def base64Encode : Octets → Octets
  | a :: b :: c :: rest => letters 4 (a.toNat * 65536 + b.toNat * 256 + c.toNat) ++ base64Encode rest
  | [a, b] => letters 3 (a.toNat * 65536 + b.toNat * 256) ++ ['=']
  | [a] => letters 2 (a.toNat * 65536) ++ ['=', '=']
  | [] => []
where
  letters (count n : Nat) : Octets :=
    (List.range count).map fun i => base64Letters.getD (n / Nat.pow 64 (3 - i) % 64) 'A'

/-- The bytes that letters stand for, up to what stands for none; and whether all do. -/
def base64Decode : Octets → Octets × Bool
  | [] => ([], true)
  | a :: b :: c :: d :: rest =>
    match value? a, value? b, value? c, value? d with
    | some x, some y, some z, some w =>
      let (more, isWhole) := base64Decode rest
      (bytes 3 (x * 262144 + y * 4096 + z * 64 + w) ++ more, isWhole)
    | some x, some y, some z, none =>
      let (more, isWhole) := if d = '=' then base64Decode rest else ([], false)
      (bytes 2 (x * 262144 + y * 4096 + z * 64) ++ more, isWhole)
    | some x, some y, none, _ =>
      let (more, isWhole) := if c = '=' ∧ d = '=' then base64Decode rest else ([], false)
      (bytes 1 (x * 262144 + y * 4096) ++ more, isWhole)
    | _, _, _, _ => ([], false)
  | a :: b :: rest =>
    match value? a, value? b, rest with
    | some x, some y, [c] => (match value? c with
      | some z => bytes 2 (x * 262144 + y * 4096 + z * 64)
      | none => bytes 1 (x * 262144 + y * 4096), false)
    | some x, some y, _ => (bytes 1 (x * 262144 + y * 4096), false)
    | _, _, _ => ([], false)
  | [_] => ([], false)
where
  value? (c : Char) : Option Nat := base64Letters.idxOf? c
  bytes (count n : Nat) : Octets :=
    (List.range count).map fun i => Char.ofNat (n / Nat.pow 256 (2 - i) % 256)

def base64 : Work Unit := do
  let o ← Options.read "diw:" [.flag 'd' "decode", .flag 'i' "ignore-garbage", .valued 'w' "wrap"]
    (← read).args
  match o.operands with
  | _ :: extra :: _ => Work.misused (octets "extra operand " ++ inQuotes extra)
  | operands =>
    let file := operands.headD ['-']
    match ← Work.text file with
    | .error reason => Work.warn (nameShown file ++ octets ": " ++ reason)
    | .ok text =>
      if o.has 'd' then
        let isLetter (c : Char) : Bool := base64Letters.contains c || c = '='
        let letters := text.filter fun c => c ≠ '\n' && (!o.has 'i' || isLetter c)
        let (bytes, isWhole) := base64Decode letters
        Work.put bytes
        if !isWhole then Work.die (octets "invalid input")
      else
        let width := ((o.value? 'w').map naturalOf).getD 76
        let letters := base64Encode text
        if width = 0 then Work.put letters
        else for line in blocksOf width (letters.length + 1) letters do Work.putLine line

/-! Comparisons -/

def compareBytes : Work Unit := do
  modify fun b => { b with usage := octets "cmp: " }
  let o ← Options.read "bi:ln:s" [.flag 's' "quiet", .flag 's' "silent", .flag 'l' "verbose",
    .flag 'b' "print-bytes", .valued 'n' "bytes", .valued 'i' "ignore-initial"] (← read).args false 2
  let (a, b) ← match o.operands with
    | [] => Work.misused (octets "missing operand after 'cmp'") 2
    | [a] => pure (a, ['-'])
    | a :: b :: _ => pure (a, b)
  let load (file : Octets) : Work Octets := do
    match ← Work.text file with
    | .ok text => return text
    | .error reason => if o.has 's' then throw 2 else Work.die (file ++ octets ": " ++ reason) 2
  let cut (text : Octets) : Octets := match o.value? 'n' with
    | some n => text.take (naturalOf n)
    | none => text
  let (x, y) := (cut (← load a), cut (← load b))
  let pairs := (x.zip y).zipIdx 1
  let differing := pairs.filter fun p => p.1.1 ≠ p.1.2
  let eof : Work Unit := do
    let (short, name) := if x.length < y.length then (x, a) else (y, b)
    if x.length ≠ y.length then
      if !o.has 's' then
        Work.putError (octets "cmp: EOF on " ++ name ++
          (if short = [] then octets " which is empty"
          else octets " after byte " ++ digits short.length ++
            if o.has 'l' then []
            else if short.getLast? = some '\n' then octets ", line " ++ digits (short.count '\n')
            else octets ", in line " ++ digits (short.count '\n' + 1)) ++ ['\n'])
  if o.has 'l' then
    let width := (digits (min x.length y.length)).length
    eof
    for ((p, q), i) in differing do
      if !o.has 's' then
        Work.putLine (atRight width (digits i) ++ ' ' :: atRight 3 (inBase 8 p.toNat) ++ ' ' ::
          atRight 3 (inBase 8 q.toNat))
    if x ≠ y then throw 1
  else match differing with
    | ((p, q), i) :: _ =>
      if !o.has 's' then
        let line := ((x.take (i - 1)).count '\n') + 1
        Work.putLine (a ++ ' ' :: b ++ octets " differ: " ++ octets (if o.has 'b' then "byte " else "char ") ++
          digits i ++ octets ", line " ++ digits line ++
          if o.has 'b' then octets " is " ++ atRight 3 (inBase 8 p.toNat) ++ ' ' :: visible true p ++ ' ' ::
            atRight 3 (inBase 8 q.toNat) ++ ' ' :: visible true q else [])
      throw 1
    | [] =>
      eof
      if x ≠ y then throw 1

/-! Blocks -/

def copyBlocks : Work Unit := do
  let call ← read
  let mut settings : List (Octets × Octets) := []
  for arg in call.args do
    let name := arg.takeWhile (· ≠ '=')
    if !arg.contains '=' ∨ String.ofList name ∉
        ["if", "of", "bs", "ibs", "obs", "count", "skip", "seek", "conv", "status", "iflag", "oflag"] then
      Work.misused (octets "unrecognized operand " ++ inQuotes arg)
    settings := assocSet name (arg.drop (name.length + 1)) settings
  let given (name : String) : Option Octets := assoc? (octets name) settings
  let number (name : String) (default : Nat) : Nat := ((given name).map sized).getD default
  let size := number "bs" (number "ibs" 512)
  let skip := number "skip" 0 * size
  let count := (given "count").map fun n => sized n * size
  let text ← match given "if" with
    | some file => do
      match (← get).disk.read file.toBytes with
      | .ok data =>
        let text := (Octets.ofBytes data).drop skip
        pure (match count with
          | some n => text.take n
          | none => text)
      | .error e => Work.die (octets "failed to open " ++ inQuotes file ++ octets ": " ++
          Work.errnoText e)
    | none => do
      match ← Work.pending with
      | .ok text =>
        let most := match count with
          | some n => min text.length (skip + n)
          | none => text.length
        modify fun b => { b with used := b.used + most }
        pure ((text.take most).drop skip)
      | .error reason => Work.die (octets "error reading 'standard input': " ++ reason)
  match given "of" with
  | none => Work.put text
  | some file =>
    let isKept := (splitAtSep ',' ((given "conv").getD [])).contains (octets "notrunc")
    let seek := number "seek" 0 * size
    let _ ← Work.change (fun d =>
      let old : Octets := .ofBytes ((d.read file.toBytes).toOption.getD [])
      let before := old.take seek ++ List.replicate (seek - old.length) '\x00'
      let after := if isKept then old.drop (seek + text.length) else []
      let all : Octets := before ++ text ++ after
      d.write file.toBytes all.toBytes (0o666 - (0o666 &&& call.mask)))
      fun e => octets "failed to open " ++ inQuotes file ++ octets ": " ++ Work.errnoText e
  if given "status" ≠ some (octets "none") then
    let blocks := octets ("+0 records ")
    let whole := digits (text.length / size)
    let rest := if text.length % size = 0 then blocks else octets "+1 records "
    Work.putError (whole ++ rest ++ octets "in\n" ++ whole ++ rest ++ octets "out\n")
where
  sized (cs : Octets) : Nat :=
    let ds := cs.takeWhile Char.isDigit
    let unit := match cs.drop ds.length with
      | ['c'] => 1
      | ['w'] => 2
      | ['b'] => 512
      | 'k' :: _ | 'K' :: _ => 1024
      | 'M' :: _ => 1048576
      | _ => 1
    naturalOf ds * unit

end Depot.Host.Tool
