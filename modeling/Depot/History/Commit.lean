import Depot.Text.Lines
import Depot.Text.Utf8

/-! Commit ids as commands print them. -/

namespace Depot

structure CommitId where
  text : String
  deriving DecidableEq, Repr

namespace CommitId

/-- A commit id has no blanks around it. -/
def ofString (text : String) : CommitId := ⟨trimmed text⟩

def numbered (n : Nat) : CommitId :=
  let digits := toString n
  ⟨"c" ++ String.ofList (List.replicate (39 - digits.length) '0') ++ digits⟩

/-- The characters that make up the first `n` bytes, or nothing if a character lies across
the cut. -/
def takeBytes? : Nat → List Char → Option (List Char)
  | 0, _ => some []
  | _, [] => some []
  | n, c :: cs =>
    let size := (String.utf8EncodeChar c).length
    if size ≤ n then (takeBytes? (n - size) cs).map (c :: ·) else none
  termination_by structural _ cs => cs

/-- The first twelve bytes; nothing if they end inside a character. -/
def short? (id : CommitId) : Option String := (takeBytes? 12 id.text.toList).map String.ofList

end CommitId

end Depot
