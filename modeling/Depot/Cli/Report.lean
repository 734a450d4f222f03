import Depot.Checkout.Site
import Depot.Cli.Invocation
import Depot.Cli.Json
import Depot.Package.Search

/-! The reports of the command line, as tables and as JSON. -/

namespace Depot.Cli

def field (key value : String) : String := "  " ++ key ++ ": " ++ value ++ "\n"

def padded (width : Nat) (s : String) : String :=
  s ++ String.ofList (List.replicate (width - s.length) ' ')

def archivePath (site : Site) (h : ArchiveHash) : String := Utf8.toStringLossy (site.archivePath h)

/-- The archive of a report, `-` if it has none, and the path of its directory. -/
def archiveLines (site : Site) (pathKey : String) (archive : Option ArchiveHash) : String :=
  match archive with
  | none => field "archive" "-"
  | some h => field "archive" h.text ++ field pathKey (archivePath site h)

def archiveFields (site : Site) (archive : Option ArchiveHash) : List (String × Json) :=
  [("archive", .ofOption (archive.map (·.text))),
    ("archive_path", .ofOption (archive.map (archivePath site)))]

def checkoutReport (site : Site) (branch path : String) (o : Outcome) : ReportFormat → String
  | .json =>
    Json.document (.record ([("branch", .text branch), ("path", .text path),
      ("commit", .text o.commit.text)] ++ archiveFields site o.archive))
  | .table => field "commit" o.commit.text ++ archiveLines site "path" o.archive

def revisionReport (site : Site) (r : Revision) : ReportFormat → String
  | .json =>
    Json.document (.record ([("target", .text r.branch.location.target.text),
      ("location", .text r.branch.location.name), ("path", .text r.branch.location.path),
      ("branch", .text r.branch.name), ("commit", .text r.commit.text)] ++
        archiveFields site r.archive))
  | .table =>
    field "location" r.branch.location.name ++ field "path" r.branch.location.path ++
      field "branch" r.branch.name ++ field "commit" r.commit.text ++
      archiveLines site "archive path" r.archive

def locationRow (name kind path branches : String) : String :=
  padded 16 name ++ " " ++ padded 8 kind ++ " " ++ padded 32 path ++ " " ++ branches ++ "\n"

def kindText (l : Location) : String := if l.isDefault then "default" else "named"

def locationsReport (ls : List Location) : ReportFormat → String
  | .json =>
    Json.document (.list (ls.map fun l =>
      .record [("name", .text l.name), ("kind", .text (kindText l)), ("path", .text l.path),
        ("branches", .list (l.branches.map fun b => .text b.name))]))
  | .table =>
    locationRow "NAME" "KIND" "PATH" "BRANCHES" ++
      String.join (ls.map fun l =>
        locationRow l.name (kindText l) l.path
          (", ".intercalate (l.branches.map (·.name))))

end Depot.Cli
