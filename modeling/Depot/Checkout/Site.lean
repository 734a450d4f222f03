import Depot.Archive.Contents
import Depot.Path.Components

/-! Where a depot reads and keeps what it works with. -/

namespace Depot

structure Site where
  /-- The bare repository that archives are made from. -/
  repository : Bytes
  /-- The directory of scratch clones, archives being built and published archives. -/
  cacheRoot : Bytes
  deriving DecidableEq, Repr

namespace Site

def cloneArea (s : Site) : Bytes := Path.join s.cacheRoot (Utf8.ofString "git-clones")
def workArea (s : Site) : Bytes := Path.join s.cacheRoot (Utf8.ofString "archives-temp")
def archiveArea (s : Site) : Bytes := Path.join s.cacheRoot (Utf8.ofString "archives")

def dirs (s : Site) : List Bytes := [s.cloneArea, s.workArea, s.archiveArea]

def archivePath (s : Site) (h : ArchiveHash) : Bytes :=
  Path.join s.archiveArea (Utf8.ofString h.text)

def archive (s : Site) (h : ArchiveHash) : Archive := ⟨h, s.archivePath h⟩

end Site

end Depot
