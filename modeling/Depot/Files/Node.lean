import Depot.Text.Utf8

/-!
File trees. The entries of a directory are kept in the byte order of their names, each name once,
so two directories with the same entries are the same tree.
-/

namespace Depot.Files

abbrev Name := Bytes

/-- The names that lead from a root to a node. -/
abbrev Place := List Name

/-- Nodes that are no directory, file or link. -/
inductive Special where
  | fifo | socket | nullDevice
  deriving DecidableEq, Repr

inductive Node where
  | file (mode : Nat) (data : Bytes)
  | link (target : Bytes)
  | special (kind : Special)
  /-- A directory that is open to its owner; `mode` says what it grants to others. -/
  | dir (mode : Nat) (entries : List (Name × Node))

abbrev Entries := List (Name × Node)

/-- What a directory tells of an entry. -/
inductive Kind where
  | directory | file | link | special
  deriving DecidableEq, Repr

namespace Entries

def find? (name : Name) : Entries → Option Node
  | [] => none
  | (n, node) :: rest => if name = n then some node else find? name rest

/-- Puts an entry in its place, instead of the one of that name if there is one. -/
def insert (name : Name) (node : Node) : Entries → Entries
  | [] => [(name, node)]
  | (n, x) :: rest =>
    if name < n then (name, node) :: (n, x) :: rest
    else if name = n then (name, node) :: rest
    else (n, x) :: insert name node rest

def erase (name : Name) : Entries → Entries
  | [] => []
  | (n, x) :: rest => if name = n then rest else (n, x) :: erase name rest

/-- Makes `node?` what a name stands for. -/
def set (name : Name) (node? : Option Node) (es : Entries) : Entries :=
  match node? with
  | some node => insert name node es
  | none => erase name es

theorem find?_insert_self (name : Name) (node : Node) (es : Entries) :
    find? name (insert name node es) = some node := by
  induction es with
  | nil => simp [insert, find?]
  | cons e es ih => grind [insert, find?]

theorem find?_insert_ne {name other : Name} (h : other ≠ name) (node : Node) (es : Entries) :
    find? other (insert name node es) = find? other es := by
  induction es with
  | nil => simp [insert, find?, h]
  | cons e es ih => grind [insert, find?]

theorem find?_erase_ne {name other : Name} (h : other ≠ name) (es : Entries) :
    find? other (erase name es) = find? other es := by
  induction es with
  | nil => rfl
  | cons e es ih => grind [erase, find?]

theorem find?_set_ne {name other : Name} (h : other ≠ name) (node? : Option Node) (es : Entries) :
    find? other (set name node? es) = find? other es := by
  cases node? with
  | none => exact find?_erase_ne h es
  | some node => exact find?_insert_ne h node es

end Entries

namespace Node

def isDir : Node → Bool
  | dir .. => true
  | _ => false

def kind : Node → Kind
  | file .. => .file
  | link _ => .link
  | special _ => .special
  | dir .. => .directory

/-- The node at a place below this one. Links are not followed. -/
def get? : Node → Place → Option Node
  | node, [] => some node
  | dir _ es, n :: place => (Entries.find? n es).bind fun child => child.get? place
  | _, _ :: _ => none
  termination_by structural _ place => place

/-- Replaces what is at a place. Nothing changes when the directory above it is missing. -/
def alter (f : Option Node → Option Node) : Place → Option Node → Option Node
  | [], node? => f node?
  | n :: place, some (dir mode es) => some (dir mode (Entries.set n (alter f place (Entries.find? n es)) es))
  | _ :: _, node? => node?

mutual

def dirCount : Node → Nat
  | dir _ es => dirCountAll es + 1
  | _ => 0

def dirCountAll : Entries → Nat
  | [] => 0
  | (_, node) :: rest => node.dirCount + dirCountAll rest

end

mutual

/-- Everything below a node, each directory right before what it holds. -/
def beneath : Node → List (Place × Node)
  | dir _ es => beneathAll es
  | _ => []

def beneathAll : Entries → List (Place × Node)
  | [] => []
  | (n, node) :: rest =>
    ([n], node) :: node.beneath.map (fun e => (n :: e.1, e.2)) ++ beneathAll rest

end

end Node

end Depot.Files
