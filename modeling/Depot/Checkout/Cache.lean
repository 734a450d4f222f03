import Depot.Archive.Hash
import Depot.History.Commit
import Depot.Pairs

/-!
The memo of finished checkouts and the locks of checkouts in progress. A lock is known by a number
that no earlier lock of the same cache had, and lives on after its entry is removed.
-/

namespace Depot

/-- The commit the branch was at, and the archive of the path; no archive if the path is no
directory at that commit. -/
structure Outcome where
  commit : CommitId
  archive : Option ArchiveHash
  deriving DecidableEq, Repr

/-- A path, in normal form, at a commit. -/
structure CheckoutKey where
  commit : CommitId
  path : String
  deriving DecidableEq, Repr

def CheckoutKey.text (key : CheckoutKey) : String := key.commit.text ++ ":" ++ key.path

abbrev LockId := Nat

structure Cache where
  entries : List (CheckoutKey × Option ArchiveHash) := []
  locks : List (CheckoutKey × LockId) := []
  /-- The number of the next lock. -/
  fresh : LockId := 0

namespace Cache

/-- The remembered outcome; `some none` is a path known to have no archive. -/
def get? (c : Cache) (key : CheckoutKey) : Option (Option ArchiveHash) := assoc? key c.entries

def insert (c : Cache) (key : CheckoutKey) (archive : Option ArchiveHash) : Cache :=
  { c with entries := assocSet key archive c.entries }

def size (c : Cache) : Nat := c.entries.length

/-- The lock of a key, made if there is none. -/
def lockFor (c : Cache) (key : CheckoutKey) : LockId × Cache :=
  match assoc? key c.locks with
  | some lock => (lock, c)
  | none => (c.fresh, { c with locks := assocSet key c.fresh c.locks, fresh := c.fresh + 1 })

/-- Forgets the lock of a key. Whoever has the lock keeps it. -/
def dropLock (c : Cache) (key : CheckoutKey) : Cache :=
  { c with locks := assocErase key c.locks }

def inFlight (c : Cache) : Nat := c.locks.length

end Cache

structure Held (Holder : Type) where
  pairs : List (LockId × Holder) := []

namespace Held

variable {Holder : Type} [DecidableEq Holder]

def acquire? (h : Held Holder) (lock : LockId) (holder : Holder) : Option (Held Holder) :=
  match assoc? lock h.pairs with
  | some _ => none
  | none => some ⟨(lock, holder) :: h.pairs⟩

def holds (h : Held Holder) (holder : Holder) : Bool := h.pairs.any fun pair => pair.2 = holder

def release (h : Held Holder) (holder : Holder) : Held Holder :=
  ⟨h.pairs.filter fun pair => pair.2 ≠ holder⟩

end Held

end Depot
