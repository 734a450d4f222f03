/-!
TOML values, and how a document adds to a table piece by piece. A table remembers how it came to be,
since that decides what may still be added to it.
-/

namespace Depot.Toml

abbrev Key := List Char

/-- How a table came to be. -/
inductive Form where
  /-- By `\x7b … \x7d`; complete. -/
  | inline
  /-- By a header of its own. -/
  | defined
  /-- By the header of a table in it. -/
  | implied
  /-- By a dotted key. -/
  | dotted
  deriving DecidableEq, Repr

inductive Value where
  | string (text : List Char)
  | integer (n : Int)
  /-- A number with a fraction or an exponent, or one of the special ones, as it is written. -/
  | real (text : List Char)
  | boolean (b : Bool)
  /-- A date, a time or both, as it is written. -/
  | moment (text : List Char)
  | array (items : List Value)
  | table (form : Form) (entries : List (Key × Value))
  /-- An array of tables, each with a header. -/
  | tables (elements : List (List (Key × Value)))

abbrev Entries := List (Key × Value)

namespace Entries

def find? (key : Key) : Entries → Option Value
  | [] => none
  | (k, v) :: rest => if key = k then some v else find? key rest

/-- Gives a key a value; a new key goes to the end. -/
def set (key : Key) (value : Value) : Entries → Entries
  | [] => [(key, value)]
  | (k, v) :: rest => if key = k then (key, value) :: rest else (k, v) :: set key value rest

/-- Changes the table at a path by `f`. Tables that are missing on the way are made; an array of
tables stands for its last element. A dotted key may not pass a table with a header. -/
def descend (isDotted : Bool) (f : Form → Entries → Option Entries) :
    List Key → Form → Entries → Option Entries
  | [], form, es => f form es
  | k :: path, _, es =>
    match find? k es with
    | none =>
      (descend isDotted f path (if isDotted then .dotted else .implied) []).map fun sub =>
        set k (.table (if isDotted then .dotted else .implied) sub) es
    | some (.table form sub) =>
      if form = .inline ∨ (isDotted ∧ form = .defined) then none
      else (descend isDotted f path form sub).map fun sub => set k (.table form sub) es
    | some (.tables elements) =>
      match elements.reverse with
      | [] => none
      | last :: before =>
        (descend isDotted f path .defined last).map fun sub =>
          set k (.tables (sub :: before).reverse) es
    | some _ => none

theorem descend_nil (isDotted : Bool) (f : Form → Entries → Option Entries) (form : Form)
    (es : Entries) : descend isDotted f [] form es = f form es := by
  rw [descend]

/-- Adds a value under a dotted key to a table. A table made by dotted keys takes values from such
keys only. -/
def addValue (path : List Key) (key : Key) (value : Value) (form : Form) (es : Entries) :
    Option Entries :=
  descend true (fun form sub =>
    if decide (form = .dotted) = path.isEmpty then none
    else match find? key sub with
      | some _ => none
      | none => some (set key value sub)) path form es

def startTable (path : List Key) (key : Key) (es : Entries) : Option Entries :=
  descend false (fun _ sub =>
    match find? key sub with
    | none => some (set key (.table .defined []) sub)
    | some (.table .implied inner) => some (set key (.table .defined inner) sub)
    | some _ => none) path .defined es

def startElement (path : List Key) (key : Key) (es : Entries) : Option Entries :=
  descend false (fun _ sub =>
    match find? key sub with
    | none => some (set key (.tables [[]]) sub)
    | some (.tables elements) => some (set key (.tables (elements ++ [[]])) sub)
    | some _ => none) path .defined es

end Entries

end Depot.Toml
