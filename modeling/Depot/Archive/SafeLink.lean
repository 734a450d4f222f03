import Depot.Path.Components

/-!
Which links may stay in an archive. A safe link is relative and no start of its target climbs above
the root of the copied tree.
-/

namespace Depot.SafeLink

open Depot.Path

/-- Going through the components from a directory `depth` levels down never leaves the root. -/
def stays : Nat → List Component → Bool
  | _, [] => true
  | _, .root :: _ => false
  | depth, .current :: cs => stays depth cs
  | depth, .name _ :: cs => stays (depth + 1) cs
  | 0, .parent :: _ => false
  | depth + 1, .parent :: cs => stays depth cs

/-- A link at `place`, counted from the root of the copied tree, may keep its target. -/
def isSafe (place : List Bytes) (target : Bytes) : Bool :=
  !(components target).isEmpty && stays (place.length - 1) (components target)

end Depot.SafeLink
