/-!
Parts, lines and blanks of a text. A line ends with a line feed, or with a carriage return and a line
feed; the last line needs no end. Blank is the Unicode property White_Space, control the category Cc.
-/

namespace Depot

/-- The parts between separators; one more than there are separators. -/
def splitAtSep {α : Type} [DecidableEq α] (sep : α) : List α → List (List α)
  | [] => [[]]
  | c :: cs =>
    if c = sep then [] :: splitAtSep sep cs
    else match splitAtSep sep cs with
      | [] => [[c]]
      | part :: parts => (c :: part) :: parts

def joinWith {α : Type} (sep : List α) : List (List α) → List α
  | [] => []
  | [part] => part
  | part :: parts => part ++ sep ++ joinWith sep parts

/-- The first list stands somewhere in the second. -/
def occursIn {α : Type} [DecidableEq α] (part : List α) : List α → Bool
  | [] => part.isEmpty
  | c :: cs => part.isPrefixOf (c :: cs) || occursIn part cs

theorem occursIn_iff_infix {α : Type} [DecidableEq α] (part cs : List α) :
    occursIn part cs = true ↔ part <:+: cs := by
  induction cs with
  | nil => simp [occursIn]
  | cons c cs ih => simp [occursIn, ih, List.infix_cons_iff]

theorem splitAtSep_ne_nil {α : Type} [DecidableEq α] (sep : α) (cs : List α) :
    splitAtSep sep cs ≠ [] := by
  cases cs with
  | nil => simp [splitAtSep]
  | cons c cs =>
    simp only [splitAtSep]
    split
    · simp
    · split <;> simp

theorem joinWith_cons_cons {α : Type} (sep part next : List α) (parts : List (List α)) :
    joinWith sep (part :: next :: parts) = part ++ sep ++ joinWith sep (next :: parts) := rfl

theorem joinWith_splitAtSep {α : Type} [DecidableEq α] (sep : α) (cs : List α) :
    joinWith [sep] (splitAtSep sep cs) = cs := by
  induction cs with
  | nil => rfl
  | cons c cs ih =>
    simp only [splitAtSep]
    cases hs : splitAtSep sep cs with
    | nil => exact absurd hs (splitAtSep_ne_nil sep cs)
    | cons part parts =>
      rw [hs] at ih
      split
      · next h => simp [joinWith_cons_cons, ih, h]
      · cases parts with
        | nil => simpa [joinWith] using ih
        | cons q qs => simpa [joinWith_cons_cons] using ih

def dropReturn (line : List Char) : List Char :=
  if line.getLast? = some '\r' then line.dropLast else line

/-- The lines among the parts between line feeds. Only a part that a line feed ended loses its
carriage return, and an empty last part is no line. -/
def endLines : List (List Char) → List (List Char)
  | [] => []
  | [part] => if part.isEmpty then [] else [part]
  | part :: parts => dropReturn part :: endLines parts

def lines (cs : List Char) : List (List Char) := endLines (splitAtSep '\n' cs)

/-- The property White_Space. -/
def isBlank (c : Char) : Bool :=
  let n := c.toNat
  (9 ≤ n && n ≤ 13) || n = 0x20 || n = 0x85 || n = 0xA0 || n = 0x1680 ||
    (0x2000 ≤ n && n ≤ 0x200A) || n = 0x2028 || n = 0x2029 || n = 0x202F || n = 0x205F || n = 0x3000

/-- The category Cc. -/
def isControl (c : Char) : Bool :=
  c.toNat < 0x20 || (0x7F ≤ c.toNat && c.toNat < 0xA0)

def trimBlank (cs : List Char) : List Char :=
  ((cs.dropWhile isBlank).reverse.dropWhile isBlank).reverse

def trimmed (s : String) : String := String.ofList (trimBlank s.toList)

end Depot
