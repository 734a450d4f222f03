import Depot.Host.Source
import Depot.Text.Lines

/-! Reading scripts: words first, then the commands that are made of them. -/

namespace Depot.Host.Reading

inductive Setting where
  | bare
  | quoted
  /-- In a text in the script. -/
  | document
  /-- In an arithmetic expression, in so many parentheses. -/
  | arithmetic (depth : Nat)

inductive Nesting where
  | outside
  | braces
  /-- Between double quotes in braces. -/
  | quotes
  deriving DecidableEq

def Setting.isQuoted : Setting → Bool
  | .bare => false
  | _ => true

def Setting.isDocument : Setting → Bool
  | .document => true
  | _ => false

/-- The word after the name of a parameter is quoted like the parameter. -/
def Setting.ofUse : Setting → Setting
  | .arithmetic _ => .quoted
  | s => s

/-- Puts a character before parts, into the first of them if that is text too. -/
def consChar (c : Char) (isQuoted : Bool) : Word → Word
  | .text cs q :: rest =>
    if q = isQuoted then .text (c :: cs) q :: rest else .text [c] isQuoted :: .text cs q :: rest
  | rest => .text [c] isQuoted :: rest

def quotedParts : Word → Word
  | [.param ['@'] .plain true] => [.eachArg]
  | ps => .quotes :: ps

/-- A backslash before this character gives the character alone. -/
def isEscaped (setting : Setting) (nesting : Nesting) (c : Char) : Bool :=
  match setting with
  | .bare => true
  | .document => c ∈ ['\\', '\x60', '$'] || (nesting ≠ .outside && c ∈ ['"', '\x7d'])
  | _ => c ∈ ['\\', '\x60', '$', '"'] || (nesting ≠ .outside && c = '\x7d')

def demandOp (text : String) (t : Token) : Reading Unit :=
  if t.isOp text then pure () else unexpected (some (.op text))

def demandKeyword (text : String) (t : Token) : Reading Unit :=
  if t.isKeyword text then pure () else unexpected (some (.keyword text))

def operator (c : Char) : Reading Token := do
  if c = '\n' then return .newline
  else
    let isDouble ← if c ∈ ['&', '|', ';'] then skipIf c else pure false
    return .op (String.ofList (if isDouble then [c, c] else [c]))

def redirection (stream : Option Nat) (c : Char) : Reading Token := do
  if c = '>' then
    let text ← if ← skipIf '>' then pure ">>" else if ← skipIf '|' then pure ">|"
      else if ← skipIf '&' then pure ">&" else pure ">"
    return .redirect (stream.getD 1) text
  else
    let text ← if ← skipIf '<' then (if ← skipIf '-' then pure "<<-" else pure "<<")
      else if ← skipIf '&' then pure "<&" else if ← skipIf '>' then pure "<>" else pure "<"
    return .redirect (stream.getD 0) text

/-- The keyword that a token is where keywords may stand. -/
def keywordOf : Token → Token
  | .word w false =>
    match (Word.plain? w).map String.ofList with
    | some text => if text ∈ keywords then .keyword text else .word w false
    | none => .word w false
  | t => t

def useOf (orEmpty : Bool) (c : Char) (word : Word) : Use :=
  match c with
  | '-' => .instead orEmpty word
  | '=' => .assign orEmpty word
  | '+' => .unless orEmpty word
  | '?' => .demand orEmpty word
  | _ => .malformed

mutual

/-- The parts of a word up to what ends it, which is not passed over. -/
def parts : Nat → Setting → Nesting → Reading Word
  | 0, _, _ => fail "out of bounds"
  | fuel + 1, setting, nesting => do
    let q := setting.isQuoted
    match ← peek with
    | none =>
      match setting with
      | .quoted => fail "Syntax error: Unterminated quoted string"
      | .arithmetic _ => fail "Syntax error: Missing '))'"
      | _ =>
        if nesting = .braces then fail "Syntax error: Missing '\x7d'"
        else return []
    | some c =>
      if nesting = .braces ∧ c = '\x7d' then return []
      else match setting, c with
        | _, '\\' =>
          skip
          match ← takeRaw with
          | none => return [.text ['\\'] true]
          | some c =>
            let rest ← parts fuel setting nesting
            let rest := consChar c true rest
            return if isEscaped setting nesting c then rest else consChar '\\' true rest
        | _, '$' =>
          skip
          let part ← dollar fuel setting
          return part :: (← parts fuel setting nesting)
        | _, '\x60' =>
          skip
          let part ← backquote fuel q
          return part :: (← parts fuel setting nesting)
        | .bare, '\'' =>
          skip
          match ← upTo '\'' with
          | none => fail "Syntax error: Unterminated quoted string"
          | some cs =>
            let rest ← parts fuel setting nesting
            return .quotes :: .text cs true :: rest
        | .bare, '"' =>
          skip
          let inner ← parts fuel .quoted (if nesting = .outside then .outside else .quotes)
          skip
          return quotedParts inner ++ (← parts fuel setting nesting)
        | .quoted, '"' | .document, '"' =>
          if nesting = .braces then
            skip
            let inner ← parts fuel .quoted .quotes
            skip
            return inner ++ (← parts fuel setting nesting)
          else if setting.isDocument then
            skip
            return consChar c q (← parts fuel setting nesting)
          else return []
        | .arithmetic depth, '(' =>
          skip
          return consChar c q (← parts fuel (.arithmetic (depth + 1)) nesting)
        | .arithmetic (depth + 1), ')' =>
          skip
          return consChar c q (← parts fuel (.arithmetic depth) nesting)
        | .arithmetic 0, ')' =>
          skip
          if ← skipIf ')' then return []
          else return consChar c q (← parts fuel setting nesting)
        | _, _ =>
          if !q ∧ nesting = .outside ∧ isMeta c then return []
          else
            skip
            return consChar c q (← parts fuel setting nesting)

def backquote : Nat → Bool → Reading Part
  | 0, _ => fail "out of bounds"
  | fuel + 1, isQuoted => do
    let outer ← get
    match backquoted isQuoted outer.rest with
    | none => fail "Syntax error: EOF in backquote substitution"
    | some (text, rest) =>
      let inUse := (openSubstitutes outer).map fun sub => { sub with after := 0 }
      set { outer with
        rest := text
        line := 1
        awaited := []
        pushed := none
        substitutes := inUse }
      let script ← commands fuel true
      let inner ← get
      let passed := outer.rest.length - rest.length
      set { inner with
        rest := rest
        line := outer.line + (outer.rest.take passed).count '\n'
        awaited := outer.awaited
        pushed := outer.pushed
        substitutes := outer.substitutes }
      return .output script isQuoted

def dollar : Nat → Setting → Reading Part
  | 0, _ => fail "out of bounds"
  | fuel + 1, setting => do
    let q := setting.isQuoted
    match ← peek with
    | some '(' =>
      skip
      if ← skipIf '(' then return .arithmetic (← parts fuel (.arithmetic 0) .outside) q
      else
        let outer ← get
        set { outer with pushed := none }
        let script ← commands fuel true
        demandOp ")" (← token fuel false false)
        modify fun s => { s with pushed := outer.pushed }
        return .output script q
    | some '\x7b' =>
      skip
      braces fuel setting
    | some c =>
      if isNameStart c then return .param (← run isNameChar (← Reading.fuel)) .plain q
      else if isSpecialParam c then
        skip
        return .param [c] .plain q
      else return .text ['$'] q
    | none => return .text ['$'] q

def braces : Nat → Setting → Reading Part
  | 0, _ => fail "out of bounds"
  | fuel + 1, setting => do
    let close (name : Octets) (use : Use) : Reading Part := do
      let _ ← skipIf '\x7d'
      return .param name use setting.isQuoted
    let malformed : Reading Part := do
      let _ ← parts fuel setting.ofUse .braces
      close [] .malformed
    let rest ← Reading.fuel
    match ← peek with
    | none => malformed
    | some c =>
      if isNameStart c then use fuel setting (← run isNameChar rest)
      else if c.isDigit then use fuel setting (← run Char.isDigit rest)
      else if c = '#' then
        skip
        match ← peek with
        | none => malformed
        | some c =>
          if isNameChar c then
            let name ← if c.isDigit then run Char.isDigit rest else run isNameChar rest
            if (← peek) = some '\x7d' then close name .length else malformed
          else if c = '\x7d' ∨ !isSpecialParam c then use fuel setting ['#']
          else
            let before ← get
            skip
            if (← peek) = some '\x7d' then close [c] .length
            else
              set before
              use fuel setting ['#']
      else if isSpecialParam c then
        skip
        use fuel setting [c]
      else malformed

def use : Nat → Setting → Octets → Reading Part
  | 0, _, _ => fail "out of bounds"
  | fuel + 1, setting, name => do
    let ending (use : Use) : Reading Part := do
      skip
      return .param name use setting.isQuoted
    let word : Reading Word := parts fuel setting.ofUse .braces
    match ← peek with
    | some '\x7d' => ending .plain
    | some '%' =>
      skip
      let isLongest ← skipIf '%'
      let pattern ← parts fuel .bare .braces
      ending (.trim true isLongest pattern)
    | some '#' =>
      skip
      let isLongest ← skipIf '#'
      let pattern ← parts fuel .bare .braces
      ending (.trim false isLongest pattern)
    | _ =>
      let orEmpty ← skipIf ':'
      match ← peek with
      | none =>
        let _ ← word
        ending .malformed
      | some c =>
        skip
        let word ← word
        ending (useOf orEmpty c word)

/-- The next token, read or given back. -/
def raw : Nat → Reading Token
  | 0 => fail "out of bounds"
  | fuel + 1 => do
    match (← get).pushed with
    | some t =>
      modify fun s => { s with pushed := none }
      return t
    | none =>
      let t ← scan fuel
      modify fun s => { s with last := t }
      return t

def scan : Nat → Reading Token
  | 0 => fail "out of bounds"
  | fuel + 1 => do
    match ← peek with
    | none => return .done
    | some c =>
      if c = ' ' ∨ c = '\t' then
        skip
        scan fuel
      else if c = '#' then
        modify fun s => { s with rest := s.rest.dropWhile (· ≠ '\n') }
        scan fuel
      else if c ∈ ['\n', '&', '|', ';', '(', ')'] then
        skip
        operator c
      else if c = '<' ∨ c = '>' then
        skip
        redirection none c
      else
        let before ← get
        skip
        let next ← peek
        if c.isDigit ∧ (next = some '<' ∨ next = some '>') then
          skip
          redirection (some (c.toNat - 48)) (next.getD '<')
        else
          set before
          let w ← parts fuel .bare .outside
          return .word w (Word.plain? w).isNone

def documents : Nat → Reading Unit
  | 0 => fail "out of bounds"
  | fuel + 1 => do
    let s ← get
    match s.awaited with
    | [] => return ()
    | a :: awaited =>
      let lines := splitAtSep '\n' s.rest
      let (text, after) := documentText a false lines
      let rest := joinWith ['\n'] after
      set { s with rest := text, awaited := [], pushed := none }
      let word ← if a.isPlain then pure [.text text true] else parts fuel .document .outside
      let inner ← get
      set { inner with
        rest := rest
        line := s.line + (lines.length - after.length)
        awaited := awaited
        pushed := s.pushed
        last := s.last
        documents := inner.documents ++ [(a.number, word)] }
      documents fuel

/-- The next token, with newlines passed over, and taken for a keyword or for the text that it stands
for, where that is asked for. -/
def token (fuel : Nat) (skipsLines hasKeywords : Bool) (hasAliases : Bool := hasKeywords) :
    Reading Token :=
  match fuel with
  | 0 => fail "out of bounds"
  | fuel + 1 => do
    let before := (← get).rest.length
    let t ← raw fuel
    match t with
    | .newline =>
      if skipsLines then
        documents fuel
        token fuel true hasKeywords hasAliases
      else return t
    | t =>
      let t := if hasKeywords then keywordOf t else t
      let s ← get
      match if hasAliases || hasPassedSubstitute before s then substitute? t s else none with
      | some (name, text) =>
        set (putSubstitute name text s)
        token fuel skipsLines hasKeywords true
      | none =>
        set { s with last := t }
        return t

def target : Nat → String → Reading Target
  | 0, _ => fail "out of bounds"
  | fuel + 1, text => do
    match ← token fuel false false with
    | .word w isQuoted =>
      match text with
      | "<" => return .read w
      | ">" => return .write false w
      | ">|" => return .write true w
      | ">>" => return .append w
      | "<>" => return .readWrite w
      | "<&" | ">&" => return .same w
      | _ =>
        let s ← get
        let a : Awaited := ⟨s.next, (Word.text? w).getD [], text = "<<-", isQuoted⟩
        set { s with next := s.next + 1, awaited := s.awaited ++ [a] }
        return .document a.number
    | _ => unexpected none

def redirects : Nat → Reading (List Redirect)
  | 0 => fail "out of bounds"
  | fuel + 1 => do
    match ← token fuel false true with
    | .redirect stream text =>
      let t ← target fuel text
      return (stream, t) :: (← redirects fuel)
    | _ =>
      giveBack
      return []

/-- Commands up to the end or to a token that ends the list; `mayBeEmpty` says that it may be the
first one. -/
def commands : Nat → Bool → Reading Script
  | 0, _ => fail "out of bounds"
  | fuel + 1, mayBeEmpty => do
    let t ← token fuel true true
    match t with
    | .done =>
      documents fuel
      giveBack
      return .nothing
    | t =>
      giveBack
      if mayBeEmpty ∧ t.endsList then return .nothing
      else
        let first ← andOr fuel
        let t ← token fuel false false
        let first := if t.isOp "&" then .background first else first
        match t with
        | .done =>
          documents fuel
          giveBack
          return first
        | .newline =>
          giveBack
          moreCommands fuel first
        | .op "&" | .op ";" => moreCommands fuel first
        | _ =>
          giveBack
          return first

def moreCommands : Nat → Script → Reading Script
  | 0, _ => fail "out of bounds"
  | fuel + 1, first => do
    match ← commands fuel true with
    | .nothing => return first
    | second => return .sequence first second

def andOr : Nat → Reading Script
  | 0 => fail "out of bounds"
  | fuel + 1 => do
    let first ← pipeline fuel true
    moreAndOr fuel first

/-- What `&&` and `||` add to a command. -/
def moreAndOr : Nat → Script → Reading Script
  | 0, _ => fail "out of bounds"
  | fuel + 1, first => do
    match ← token fuel false false with
    | .op "&&" =>
      let second ← linePipeline fuel
      moreAndOr fuel (.both first second)
    | .op "||" =>
      let second ← linePipeline fuel
      moreAndOr fuel (.either first second)
    | _ =>
      giveBack
      return first

/-- A pipeline that may begin on a later line. -/
def linePipeline : Nat → Reading Script
  | 0 => fail "out of bounds"
  | fuel + 1 => do
    let _ ← token fuel true true
    giveBack
    pipeline fuel true

def pipeline : Nat → Bool → Reading Script
  | 0, _ => fail "out of bounds"
  | fuel + 1, hasKeywords => do
    let t ← token fuel false hasKeywords
    if t.isKeyword "!" then
      let _ ← token fuel false true
      giveBack
      return .negate (← stages fuel)
    else
      giveBack
      stages fuel

def stages : Nat → Reading Script
  | 0 => fail "out of bounds"
  | fuel + 1 => do
    let first ← command fuel
    match ← moreStages fuel with
    | [] => return first
    | more => return .pipe (first :: more)

def moreStages : Nat → Reading (List Script)
  | 0 => fail "out of bounds"
  | fuel + 1 => do
    match ← token fuel false false with
    | .op "|" =>
      let _ ← token fuel true true
      giveBack
      let next ← command fuel
      return next :: (← moreStages fuel)
    | _ =>
      giveBack
      return []

def command : Nat → Reading Script
  | 0 => fail "out of bounds"
  | fuel + 1 => do
    let line := (← get).line
    let grouped (body : Script) : Reading Script := do
      match ← redirects fuel with
      | [] => return body
      | rs => return .group line body rs
    match ← token fuel false false with
    | .keyword "if" =>
      let body ← choice fuel
      demandKeyword "fi" (← token fuel false true)
      grouped body
    | .keyword "while" =>
      let (test, body) ← loopParts fuel
      grouped (.loop false test body)
    | .keyword "until" =>
      let (test, body) ← loopParts fuel
      grouped (.loop true test body)
    | .keyword "for" =>
      let body ← rounds fuel line
      grouped body
    | .keyword "case" =>
      match ← token fuel false false with
      | .word subject _ =>
        demandKeyword "in" (← token fuel true true)
        let t ← token fuel true true false
        let bs ← branches fuel t
        grouped (.select line subject bs)
      | _ => unexpected (some (.word [] false))
    | .op "(" =>
      let body ← commands fuel false
      demandOp ")" (← token fuel false true)
      return .apart line body (← redirects fuel)
    | .keyword "\x7b" =>
      let body ← commands fuel false
      demandKeyword "\x7d" (← token fuel false true)
      grouped body
    | .word .. | .redirect .. =>
      giveBack
      simple fuel line
    | _ => unexpected none

/-- The rest of a choice after `if` or `elif`, up to its end. -/
def choice : Nat → Reading Script
  | 0 => fail "out of bounds"
  | fuel + 1 => do
    let test ← commands fuel false
    demandKeyword "then" (← token fuel false true)
    let yes ← commands fuel false
    match ← token fuel false true with
    | .keyword "elif" => return .choose test yes (some (← choice fuel))
    | .keyword "else" => return .choose test yes (some (← commands fuel false))
    | _ =>
      giveBack
      return .choose test yes none

def loopParts : Nat → Reading (Script × Script)
  | 0 => fail "out of bounds"
  | fuel + 1 => do
    let test ← commands fuel false
    demandKeyword "do" (← token fuel false true)
    let body ← commands fuel false
    demandKeyword "done" (← token fuel false true)
    return (test, body)

def words : Nat → Reading (List Word)
  | 0 => fail "out of bounds"
  | fuel + 1 => do
    match ← token fuel false false with
    | .word w _ => return w :: (← words fuel)
    | _ => return []

def rounds : Nat → Nat → Reading Script
  | 0, _ => fail "out of bounds"
  | fuel + 1, line => do
    match ← token fuel false false with
    | .word w false =>
      let name := (Word.plain? w).getD []
      if !isName name then fail "Syntax error: Bad for loop variable"
      let t ← token fuel true true
      let ws ← if t.isKeyword "in" then do
          let ws ← words fuel
          match (← get).last with
          | .newline | .op ";" => pure ws
          | _ => unexpected none
        else do
          if !t.isOp ";" then giveBack
          pure [[.eachArg]]
      demandKeyword "do" (← token fuel true true)
      let body ← commands fuel false
      demandKeyword "done" (← token fuel false true)
      return .forEach line name ws body
    | _ => fail "Syntax error: Bad for loop variable"

/-- The branches of a selection, up to its end, given the token that begins the next. -/
def branches : Nat → Token → Reading (List (List Word × Script))
  | 0, _ => fail "out of bounds"
  | fuel + 1, t => do
    if t.isKeyword "esac" then return []
    else
      let t ← if t.isOp "(" then token fuel false false else pure t
      let ws ← patterns fuel t
      let body ← commands fuel true
      match ← token fuel true true with
      | .keyword "esac" => return [(ws, body)]
      | .op ";;" =>
        let t ← token fuel true true false
        return (ws, body) :: (← branches fuel t)
      | _ => unexpected (some (.op ";;"))

def patterns : Nat → Token → Reading (List Word)
  | 0, _ => fail "out of bounds"
  | fuel + 1, t => do
    let w ← match t with
      | .word w _ => pure w
      | .keyword text => pure [.text text.toList false]
      | _ => unexpected none
    let t ← token fuel false false
    if t.isOp "|" then
      let t ← token fuel false false
      return w :: (← patterns fuel t)
    else
      demandOp ")" t
      return [w]

/-- A command that is no compound, or the definition of a function. -/
def simple : Nat → Nat → Reading Script
  | 0, _ => fail "out of bounds"
  | fuel + 1, line => do
    let first ← token fuel false false
    match first with
    | .word w isQuoted =>
      if (Word.setting? w).isSome then
        giveBack
        simpleRest fuel line [] [] []
      else
        let t ← token fuel false false
        if t.isOp "(" then
          demandOp ")" (← token fuel false false)
          let name := if isQuoted then [] else (Word.plain? w).getD []
          if !isName name ∨ isSpecialName name then fail "Syntax error: Bad function name"
          let _ ← token fuel true true
          giveBack
          return .define name (← command fuel)
        else
          giveBack
          simpleRest fuel line [] [w] []
    | _ =>
      giveBack
      simpleRest fuel line [] [] []
where
  /-- Functions may not have these names. -/
  isSpecialName (name : Octets) : Bool :=
    String.ofList name ∈ ["break", "continue", "eval", "exec", "exit", "export", "readonly", "local",
      "return", "set", "shift", "times", "trap", "unset"]

def simpleRest : Nat → Nat → List Word → List Word → List Redirect → Reading Script
  | 0, _, _, _, _ => fail "out of bounds"
  | fuel + 1, line, settings, ws, rs => do
    match ← token fuel false false ws.isEmpty with
    | .word w _ =>
      if ws.isEmpty ∧ (Word.setting? w).isSome then simpleRest fuel line (settings ++ [w]) ws rs
      else simpleRest fuel line settings (ws ++ [w]) rs
    | .redirect stream text =>
      let t ← target fuel text
      simpleRest fuel line settings ws (rs ++ [(stream, t)])
    | _ =>
      giveBack
      return .simple line settings ws rs

end

/-- The commands of the next line, or of more lines if they go on; nothing at the end. -/
def line (fuel : Nat) : Nat → Reading (Option Script)
  | 0 => fail "out of bounds"
  | more + 1 => do
    match ← token fuel false true with
    | .done => return none
    | .newline =>
      documents fuel
      line fuel more
    | _ =>
      giveBack
      return some (← lineRest fuel more)
where
  lineRest (fuel : Nat) : Nat → Reading Script
    | 0 => fail "out of bounds"
    | more + 1 => do
      let first ← andOr fuel
      let t ← token fuel false false
      let first := if t.isOp "&" then .background first else first
      match t with
      | .done =>
        giveBack
        return first
      | .newline =>
        documents fuel
        return first
      | .op "&" | .op ";" =>
        match ← token fuel false true with
        | .newline =>
          documents fuel
          return first
        | .done =>
          giveBack
          return first
        | _ =>
          giveBack
          return .sequence first (← lineRest fuel more)
      | _ => unexpected none

end Depot.Host.Reading

namespace Depot.Host

def Source.nextLine (s : Source) : Except SyntaxFault (Option Script × Source) :=
  let fuel := 16 * (s.rest.length + 16) * (s.aliases.length + 1)
  Reading.line fuel (s.rest.length + 2) s

end Depot.Host
