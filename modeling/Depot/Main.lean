import Depot.Cli.Session

/-!
The program. Its depot is held in memory: it begins with an empty disk and lasts for one command
line.
-/

open Depot

/-- The variables that decide where settings, repository and cache are. -/
def Depot.Cli.variables : List String :=
  [Cli.settingsVariable, "HOME", "XDG_CONFIG_HOME", "XDG_DATA_HOME", "XDG_CACHE_HOME"]

def main (args : List String) : IO UInt32 := do
  let mut env : Environment := []
  for name in Cli.variables do
    match ← IO.getEnv name with
    | some value => env := env ++ [(name, Utf8.ofString value)]
    | none => pure ()
  let (_, done) := Cli.run env { disk := { root := .dir 0o755 [] } } args
  IO.print (Utf8.toStringLossy done.out)
  IO.eprint (Utf8.toStringLossy done.err)
  return UInt32.ofNat (done.code.getD 1)
