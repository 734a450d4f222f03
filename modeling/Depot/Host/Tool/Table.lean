import Depot.Host.Tool.Compare
import Depot.Host.Tool.Edit
import Depot.Host.Tool.Expression
import Depot.Host.Tool.Files
import Depot.Host.Tool.Order
import Depot.Host.Tool.Raw
import Depot.Host.Tool.Search

/-! The tools of the host by their names. -/

namespace Depot.Host.Tool

def named? (name : Octets) : Option (Work Unit) :=
  match String.ofList name with
  -- Words
  | "true" => some (pure ())
  | "false" => some (modify fun b => { b with status := 1 })
  | "echo" => some echo
  | "printf" => some print
  | "yes" => some yes
  | "seq" => some sequence
  | "expr" => some expression
  | "test" => some (condition false)
  | "[" => some (condition true)
  | "basename" => some baseNames
  | "dirname" => some dirNames
  | "pwd" => some workingDirectory
  | "printenv" => some showVariables
  | "whoami" => some (Work.put (octets "root\n"))
  | "id" => some identity
  | "uname" => some systemName
  | "sleep" => some sleep
  | "tty" => some do
    Work.put (octets "not a tty\n")
    throw 1
  | "groups" => some (Work.put (octets "root\n"))
  -- Lines
  | "cat" => some concatenate
  | "tee" => some tee
  | "tac" => some backwards
  | "rev" => some reversed
  | "head" => some (showParts false)
  | "tail" => some (showParts true)
  | "nl" => some numberLines
  | "wc" => some countWords
  | "cut" => some cut
  | "paste" => some paste
  | "fold" => some fold
  | "expand" => some expandTabs
  | "tr" => some translate
  -- Order
  | "sort" => some sort
  | "uniq" => some unique
  | "comm" => some common
  -- Patterns
  | "sed" => some edit
  | "grep" => some (search false false)
  | "egrep" => some (search true false)
  | "fgrep" => some (search false true)
  -- Bytes
  | "od" => some dump
  | "md5sum" => some (sums Md5.digest "MD5")
  | "sha1sum" => some (sums Sha1.digest "SHA1")
  | "sha256sum" => some (sums Sha256.digest "SHA256")
  | "base64" => some base64
  | "cmp" => some compareBytes
  | "dd" => some copyBlocks
  | "diff" => some compareTexts
  -- Files
  | "ls" => some list
  | "mkdir" => some makeDirectories
  | "rmdir" => some removeDirectories
  | "rm" => some remove
  | "touch" => some touch
  | "chmod" => some changeModes
  | "cp" => some copy
  | "mv" => some move
  | "ln" => some link
  | "readlink" => some readLinks
  | "realpath" => some realPaths
  | "stat" => some status
  | "truncate" => some truncate
  | "unlink" => some unlink
  | "mkfifo" => some makePipes
  | _ => none

end Depot.Host.Tool
