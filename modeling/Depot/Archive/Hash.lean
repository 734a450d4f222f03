import Depot.Failure
import Depot.Text.Lines
import Depot.Text.Utf8

/-! Content hashes of archives: 64 lowercase hexadecimal digits. -/

namespace Depot

structure ArchiveHash where
  text : String
  deriving DecidableEq, Repr

namespace ArchiveHash

def isDigit (c : Char) : Bool := ('0' ≤ c && c ≤ '9') || ('a' ≤ c && c ≤ 'f')

def ofDigest (digest : Bytes) : ArchiveHash := ⟨String.ofList (Hex.encode digest)⟩

/-- Reads a hash, with blanks around it allowed. -/
def parse (text : String) : Except Failure ArchiveHash :=
  let cs := trimBlank text.toList
  if cs.length = 64 ∧ cs.all isDigit then .ok ⟨String.ofList cs⟩
  else .error (.pathInvalid (Utf8.encode cs) "not a lowercase hex SHA-256 digest")

def short (h : ArchiveHash) : String := String.ofList (h.text.toList.take 12)

end ArchiveHash

end Depot
