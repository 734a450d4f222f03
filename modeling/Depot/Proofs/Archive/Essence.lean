import Depot.Proofs.Archive.Plan
import Depot.Proofs.Archive.Settled

/-!
What an archive can tell of a tree. Of all modes it depends on nothing but which files their owner may
read and which of them anybody may run. The nodes of a tree without all other bits of its modes are
archived as the nodes of the tree are.
-/

namespace Depot.Files

/-- A mode without the bits that no archive depends on. -/
def essentialMode (mode : Nat) : Nat :=
  (if mode &&& Disk.ownerRead = 0 then 0 else Disk.ownerRead) +
    if Fingerprint.isExecutable mode then Disk.ownerRun else 0

theorem essentialMode_and_ownerRead (mode : Nat) :
    essentialMode mode &&& Disk.ownerRead = 0 ↔ mode &&& Disk.ownerRead = 0 := by
  rw [essentialMode]
  by_cases hread : mode &&& Disk.ownerRead = 0
  · rw [if_pos hread]
    split_ifs <;> exact iff_of_true (by decide) hread
  · rw [if_neg hread]
    split_ifs <;> exact iff_of_false (by decide) hread

theorem isExecutable_essentialMode (mode : Nat) :
    Fingerprint.isExecutable (essentialMode mode) = Fingerprint.isExecutable mode := by
  rw [essentialMode]
  by_cases hrun : Fingerprint.isExecutable mode = true
  · rw [if_pos hrun, hrun]
    split_ifs <;> decide
  · rw [if_neg hrun, Bool.eq_false_of_not_eq_true hrun]
    split_ifs <;> decide

/-- Nothing essential is lost when a file is written. -/
theorem essentialMode_modeAfterWrite (mode : Nat) :
    essentialMode (Disk.modeAfterWrite mode) = essentialMode mode := by
  have hread : Disk.modeAfterWrite mode &&& Disk.ownerRead = mode &&& Disk.ownerRead :=
    Disk.modeAfterWrite_and (by decide) mode
  have hrun : Fingerprint.isExecutable (Disk.modeAfterWrite mode) =
      Fingerprint.isExecutable mode := by
    rw [Fingerprint.isExecutable, Fingerprint.isExecutable, Disk.modeAfterWrite_and (by decide)]
  rw [essentialMode, essentialMode, hread, hrun]

theorem modeAfterWrite_essentialMode (mode : Nat) :
    Disk.modeAfterWrite (essentialMode mode) = essentialMode mode := by
  rw [essentialMode]
  split_ifs <;> decide

namespace Node

/-- A tree with no more of its modes than an archive depends on. -/
abbrev essence (node : Node) : Node := node.moded essentialMode

end Node

end Depot.Files

namespace Depot.Archive

open Files

theorem fill_essence (es : Entries) (node : Node) (place : Place) :
    fill (Node.modedAll essentialMode es) (node.moded essentialMode) place =
      Node.modedAll essentialMode (fill es node place) := by
  cases place with
  | nil => rfl
  | cons n rest =>
    rw [fill, fill, Node.find?_modedAll, Node.alter_moded, Entries.set_modedAll]

theorem copied_essence (mode : Nat) (data : Bytes) :
    Node.copied (essentialMode mode) data = (Node.copied mode data).moded essentialMode := by
  rw [Node.copied, Node.copied, Node.moded, modeAfterWrite_essentialMode, ite_self]
  split_ifs
  · rfl
  · rw [essentialMode_modeAfterWrite]

end Depot.Archive
