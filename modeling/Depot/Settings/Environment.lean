import Depot.Process.Command
import Depot.Settings.Rules

/-! Where settings, repository and cache are unless somebody says otherwise. -/

namespace Depot

namespace Environment

/-- A directory named by a variable; one that is relative or empty does not count. -/
def directory? (env : Environment) (name : String) : Option Bytes :=
  (assoc? name env).filter Path.isAbsolute

/-- The home directory; that of the superuser if none is set. -/
def home (env : Environment) : Bytes :=
  match assoc? "HOME" env with
  | some path => if path = [] then Utf8.ofString "/root" else path
  | none => Utf8.ofString "/root"

/-- A user's base directory: the one a variable names, or else one below the home directory. -/
def base (env : Environment) (name below : String) : Bytes :=
  (env.directory? name).getD (Path.join env.home (Utf8.ofString below))

def settingsPath (env : Environment) : Bytes :=
  Path.join (env.base "XDG_CONFIG_HOME" ".config") (Utf8.ofString "pkgstore/config.toml")

def defaultSettings (env : Environment) : Settings where
  logFormat := "text"
  repository :=
    Path.join (env.base "XDG_DATA_HOME" ".local/share") (Utf8.ofString "pkgstore/mirror.git")
  cacheRoot := Path.join (env.base "XDG_CACHE_HOME" ".cache") (Utf8.ofString "pkgstore")
  packages := []

end Environment

end Depot
