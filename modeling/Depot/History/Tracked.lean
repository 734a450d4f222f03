import Depot.Files.Node

/-! What a commit keeps of a directory. -/

namespace Depot.Tracked

open Files

mutual

/-- What a commit keeps of a node: files with one of two modes, links, and directories that hold
any of these. -/
def node? : Node → Option Node
  | .file mode data => some (.file (if mode &&& 0o111 = 0 then 0o644 else 0o755) data)
  | .link target => some (.link target)
  | .special _ => none
  | .dir _ es =>
    match entries es with
    | [] => none
    | kept => some (.dir 0o755 kept)

def entries : Entries → Entries
  | [] => []
  | (n, node) :: rest =>
    match node? node with
    | none => entries rest
    | some kept => (n, kept) :: entries rest

end

/-- The tree of a commit of everything below a node. -/
def tree : Node → Entries
  | .dir _ es => entries es
  | _ => []

end Depot.Tracked
