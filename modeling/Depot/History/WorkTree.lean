import Depot.Files.Disk
import Depot.History.Conversion

/-!
The files of a commit as they are checked out. A tree with a name that some file system would take
for the directory of a repository is refused, and so is one that does not fit on a disk.
-/

namespace Depot.WorkTree

open Files

/-- The text begins with a word in lower case letters, in any case. -/
def startsWith (word : String) (cs : Octets) : Bool :=
  (cs.take word.length).map Char.toLower = octets word

def isDot (c : Char) : Bool := c = '.' || c = ' '

/-- Only dots and blanks come before the end of the text, or before a character that ends a name. -/
def hasOnlyDots (endings : List Char) (cs : Octets) : Bool :=
  match cs.dropWhile isDot with
  | [] => true
  | c :: _ => endings.contains c

/-- Some systems take the name that begins a path for that of the directory of a repository. -/
def isRepositoryName (path : Octets) : Bool :=
  startsWith ".git" path && hasOnlyDots ['\\', '/', ':'] (path.drop 4) ||
    startsWith "git~1" path && hasOnlyDots ['\\', '/', ':'] (path.drop 5)

/-- A short name that a system makes up for one it cannot write: at most six characters of a stem,
a tilde, a digit that is not zero, and digits up to eight characters. -/
def isShortName (stem : String) (path : Octets) : Bool :=
  let before := path.takeWhile (· ≠ '~')
  match path.drop before.length with
  | '~' :: digit :: rest =>
    let more := 6 - before.length
    before.length ≤ 6 && (before.map Char.toLower).isPrefixOf (octets stem) &&
      '1' ≤ digit && digit ≤ '9' && more ≤ rest.length && (rest.take more).all Char.isDigit &&
      hasOnlyDots [':'] (rest.drop more)
  | _ => false

/-- Some systems take the path for the list of parts kept elsewhere. -/
def isModulesName (path : Octets) : Bool :=
  startsWith ".gitmodules" path && hasOnlyDots [':'] (path.drop 11) ||
    startsWith "gitmod~" path && ((path[7]?.map fun c => '1' ≤ c && c ≤ '4').getD false) &&
      hasOnlyDots [':'] (path.drop 8) ||
    isShortName "gi7eba" path

/-- What follows each slash and each backslash of a path. -/
def afterSlashes : Octets → List Octets
  | [] => []
  | c :: rest => if c = '/' ∨ c = '\\' then rest :: afterSlashes rest else afterSlashes rest

/-- A path of parts that may be checked out. Links may not stand for the list of parts kept
elsewhere. -/
def isAllowed (isLink : Bool) (parts : List Octets) : Bool :=
  let path := joinWith ['/'] parts
  path.length ≤ Disk.pathLimit &&
    (parts.all fun part => part ≠ [] && part ≠ ['.'] && part ≠ ['.', '.'] && part.length ≤ 255 &&
      !(isLink && part.map Char.toLower = octets ".gitmodules")) &&
    (path :: afterSlashes path).all fun rest => !isRepositoryName rest && !(isLink && isModulesName rest)

def attributesName : Name := Utf8.ofString ".gitattributes"

/-- The attributes that a directory gives, `depth` directories below the top. -/
def source? (depth : Nat) (es : Entries) : Option Attributes.Source :=
  match Entries.find? attributesName es with
  | some (.file _ data) | some (.link data) => some ⟨depth, Attributes.parse (depth = 0) data⟩
  | _ => none

mutual

/-- What becomes of a node at a path of parts, the last part first. -/
def node? (sources : List Attributes.Source) (above : List Octets) : Node → Option Node
  | .file mode data =>
    let path := above.reverse
    if isAllowed false path then
      (Conversion.wishes? (Attributes.ofPath sources path)).map fun wishes =>
        .file mode (Conversion.apply wishes data)
    else none
  | .link target =>
    if isAllowed true above.reverse ∧ target ≠ [] ∧ target.length ≤ Disk.pathLimit then
      some (.link target)
    else none
  | .special kind => some (.special kind)
  | .dir mode es =>
    (entries? ((source? above.length es).toList ++ sources) above es).map (.dir mode)

def entries? (sources : List Attributes.Source) (above : List Octets) : Entries → Option Entries
  | [] => some []
  | (name, node) :: rest => do
    let node ← node? sources (Octets.ofBytes name :: above) node
    let rest ← entries? sources above rest
    return (name, node) :: rest

end

/-- The tree of a commit as it is checked out; nothing if it cannot be. -/
def ofTree? (tree : Entries) : Option Entries := entries? (source? 0 tree).toList [] tree

end Depot.WorkTree
