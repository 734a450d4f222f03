import Depot.Proofs.Text.Decoding
import Depot.Proofs.Toml.Reader
import Depot.Settings.Document

/-!
The document of settings is read as its entries, and these entries give the settings back. Packages
and their locations are arrays of tables: one lemma adds the locations of the package that was
started last, one adds packages.
-/

namespace Depot.Settings

open Toml

def locationEntries (l : LocationEntry) : Entries :=
  [("name".toList, .string l.name.toList), ("path".toList, .string l.path.toList)]

def packageEntries (p : PackageEntry) : Entries :=
  [("id".toList, .string p.id.toList), ("locations".toList,
    if p.locations = [] then .array [] else .tables (p.locations.map locationEntries))]

/-- A section has one value. -/
def sectionEntry (name key : String) (value : List Char) : Key × Value :=
  (name.toList, .table .defined [(key.toList, .string value)])

def sections (s : Settings) : Entries := [
  sectionEntry "general" "log_format" s.logFormat.toList,
  sectionEntry "repository" "mirror_path" (Utf8.lossy s.repository),
  sectionEntry "cache" "root" (Utf8.lossy s.cacheRoot)]

def entries (s : Settings) : Entries :=
  if s.packages = [] then ("packages".toList, .array []) :: sections s
  else sections s ++ [("packages".toList, .tables (s.packages.map packageEntries))]

/-! ### Reading the document -/

section reading

variable {es base current : Entries} {rest : List Char} {header : List Key}

theorem reads_section {name key : Key} (hname : IsBare name) (hkey : IsBare key) {value : List Char}
    (hes : Entries.find? name base = none)
    (h : Document.Reads ⟨base.set name (.table .defined [(key, .string value)]), [name]⟩ rest es) :
    Document.Reads ⟨base, header⟩
      ('[' :: (name ++ ']' :: '\n' :: (key ++ ' ' :: '=' :: ' ' :: (quoted value ++ '\n' :: rest))))
      es := by
  have hadd : (⟨base.set name (.table .defined []), [name]⟩ : Document).addValue [] key
      (.string value) = some ⟨base.set name (.table .defined [(key, .string value)]), [name]⟩ := by
    rw [Document.addValue_table (Entries.find?_set_self _ _ _) rfl, Entries.set_set]
    rfl
  exact (Document.Reads.quoted key hkey hadd h).table [] name (by simpa using hname) (by decide)
    (Entries.startTable_new hes)

theorem locationText_append (l : LocationEntry) (rest : List Char) :
    locationText l ++ rest = '\n' :: '[' :: '[' :: (joinWith ['.'] (["packages".toList] ++
      ["locations".toList]) ++ ']' :: ']' :: '\n' ::
        ("name".toList ++ ' ' :: '=' :: ' ' :: (quoted l.name.toList ++ '\n' ::
          ("path".toList ++ ' ' :: '=' :: ' ' :: (quoted l.path.toList ++ '\n' :: rest))))) := by
  have h : locationText l = "\n[[packages.locations]]\n".toList ++
      ("name".toList ++ " = ".toList ++ quoted l.name.toList ++ ['\n']) ++
      ("path".toList ++ " = ".toList ++ quoted l.path.toList ++ ['\n']) := rfl
  rw [h]
  simp only [List.append_assoc]
  rfl

theorem reads_location (hcurrent : Entries.find? "locations".toList current = none) {before done : List Entries}
    {l : LocationEntry}
    (h : Document.Reads ⟨Entries.withTables "packages".toList (before ++
      [Entries.withTables "locations".toList (done ++ [locationEntries l]) current]) base,
      ["packages".toList, "locations".toList]⟩ rest es) :
    Document.Reads ⟨Entries.withTables "packages".toList (before ++
      [Entries.withTables "locations".toList done current]) base, header⟩
      (locationText l ++ rest) es := by
  have hadd (sub : Entries) {key : Key} (v : Value) (hkey : Entries.find? key sub = none) :
      (⟨Entries.withTables "packages".toList (before ++
          [Entries.withTables "locations".toList (done ++ [sub]) current]) base,
        ["packages".toList, "locations".toList]⟩ : Document).addValue [] key v =
      some ⟨Entries.withTables "packages".toList (before ++
          [Entries.withTables "locations".toList (done ++ [sub.set key v]) current]) base,
        ["packages".toList, "locations".toList]⟩ := by
    rw [Document.addValue_tables, Document.addValue_tables, Document.addValue_root hkey]
    rfl
  have hpath := h.quoted "path".toList (by decide)
    (hadd [("name".toList, .string l.name.toList)] (.string l.path.toList) rfl)
  have hname := hpath.quoted "name".toList (by decide)
    (hadd [] (.string l.name.toList) rfl)
  rw [locationText_append]
  refine (hname.element ["packages".toList] "locations".toList (by decide)
    (by decide) ?_).blank
  rw [Entries.startElement_below, Entries.startElement_withTables hcurrent]
  rfl

theorem reads_locations (done : List Entries)
    (hcurrent : Entries.find? "locations".toList current = none) {before : List Entries}
    {ls : List LocationEntry}
    (h : ∀ header, Document.Reads ⟨Entries.withTables "packages".toList (before ++
      [Entries.withTables "locations".toList (done ++ ls.map locationEntries) current]) base,
      header⟩ rest es) :
    Document.Reads ⟨Entries.withTables "packages".toList (before ++
      [Entries.withTables "locations".toList done current]) base, header⟩
      (ls.flatMap locationText ++ rest) es := by
  induction ls generalizing done header with
  | nil => simpa using h header
  | cons l ls ih =>
    rw [List.flatMap_cons, List.append_assoc]
    refine reads_location hcurrent (ih _ fun header => ?_)
    simpa using h header

theorem packageText_append (p : PackageEntry) (rest : List Char) :
    packageText p ++ rest = '\n' :: '[' :: '[' :: (joinWith ['.'] ([] ++ ["packages".toList]) ++
      ']' :: ']' :: '\n' :: ("id".toList ++ ' ' :: '=' :: ' ' :: (quoted p.id.toList ++ '\n' ::
        ((if p.locations = [] then "locations = []\n".toList
          else p.locations.flatMap locationText) ++ rest)))) := by
  have h : packageText p = "\n[[packages]]\n".toList ++
      ("id".toList ++ " = ".toList ++ quoted p.id.toList ++ ['\n']) ++
      if p.locations = [] then "locations = []\n".toList
      else p.locations.flatMap locationText := rfl
  rw [h]
  simp only [List.append_assoc]
  rfl

theorem value?_empty (rest : List Char) :
    value? depthLimit (skipSpace (" []".toList ++ '\n' :: rest)) =
      some (.array [], '\n' :: rest) := by
  rfl

theorem reads_package (hbase : Entries.find? "packages".toList base = none) {done : List Entries}
    {p : PackageEntry}
    (h : ∀ header, Document.Reads ⟨Entries.withTables "packages".toList
      (done ++ [packageEntries p]) base, header⟩ rest es) :
    Document.Reads ⟨Entries.withTables "packages".toList done base, header⟩
      (packageText p ++ rest) es := by
  have hadd (sub : Entries) {key : Key} (v : Value) (hkey : Entries.find? key sub = none) :
      (⟨Entries.withTables "packages".toList (done ++ [sub]) base,
        ["packages".toList]⟩ : Document).addValue [] key v =
      some ⟨Entries.withTables "packages".toList (done ++ [sub.set key v]) base,
        ["packages".toList]⟩ := by
    rw [Document.addValue_tables, Document.addValue_root hkey]
    rfl
  have hlocations : Document.Reads ⟨Entries.withTables "packages".toList
      (done ++ [[("id".toList, .string p.id.toList)]]) base, ["packages".toList]⟩
      ((if p.locations = [] then "locations = []\n".toList
        else p.locations.flatMap locationText) ++ rest) es := by
    split_ifs with hempty
    · refine (h ["packages".toList]).pair "locations".toList (by decide)
        (value?_empty rest) ?_
      rw [hadd _ _ rfl, packageEntries, if_pos hempty]
      rfl
    · refine reads_locations [] rfl fun header => ?_
      have hentries : Entries.withTables "locations".toList ([] ++ p.locations.map locationEntries)
          [("id".toList, .string p.id.toList)] = packageEntries p := by
        rw [List.nil_append, Entries.withTables, if_neg (by simpa using hempty), packageEntries,
          if_neg hempty]
        rfl
      rw [hentries]
      exact h header
  have hid := hlocations.quoted "id".toList (by decide)
    (hadd [] (.string p.id.toList) rfl)
  rw [packageText_append]
  refine (hid.element [] "packages".toList (by decide) (by decide) ?_).blank
  exact Entries.startElement_withTables hbase done

theorem reads_packages (done : List Entries)
    (hbase : Entries.find? "packages".toList base = none)
    {ps : List PackageEntry}
    (h : ∀ header, Document.Reads ⟨Entries.withTables "packages".toList
      (done ++ ps.map packageEntries) base, header⟩ rest es) :
    Document.Reads ⟨Entries.withTables "packages".toList done base, header⟩
      (ps.flatMap packageText ++ rest) es := by
  induction ps generalizing done header with
  | nil => simpa using h header
  | cons p ps ih =>
    rw [List.flatMap_cons, List.append_assoc]
    refine reads_package hbase fun header => ih _ fun header => ?_
    simpa using h header

/-- The text of the sections, before the packages. -/
def sectionsText (s : Settings) : List Char :=
  '[' :: ("general".toList ++ ']' :: '\n' :: ("log_format".toList ++ ' ' :: '=' :: ' ' ::
    (quoted s.logFormat.toList ++ '\n' :: '\n' ::
  '[' :: ("repository".toList ++ ']' :: '\n' :: ("mirror_path".toList ++ ' ' :: '=' :: ' ' ::
    (quoted (Utf8.lossy s.repository) ++ '\n' :: '\n' ::
  '[' :: ("cache".toList ++ ']' :: '\n' :: ("root".toList ++ ' ' :: '=' :: ' ' ::
    (quoted (Utf8.lossy s.cacheRoot) ++ '\n' :: s.packages.flatMap packageText)))))))))

theorem text_eq (s : Settings) :
    s.text = (if s.packages = [] then "packages".toList ++ ' ' :: '=' :: ' ' ::
      ("[]".toList ++ '\n' :: ['\n']) else []) ++ sectionsText s := by
  have h : s.text = (if s.packages = [] then "packages = []\n\n".toList else []) ++
      "[general]\n".toList ++
      ("log_format".toList ++ " = ".toList ++ quoted s.logFormat.toList ++ ['\n']) ++
      "\n[repository]\n".toList ++
      ("mirror_path".toList ++ " = ".toList ++ quoted (Utf8.lossy s.repository) ++ ['\n']) ++
      "\n[cache]\n".toList ++
      ("root".toList ++ " = ".toList ++ quoted (Utf8.lossy s.cacheRoot) ++ ['\n']) ++
      s.packages.flatMap packageText := rfl
  rw [h]
  simp only [List.append_assoc]
  rfl

theorem reads_sections {s : Settings} {v : Value} {base : Entries}
    (hbase : base = [] ∨ base = [("packages".toList, v)])
    (h : ∀ header, Document.Reads ⟨base ++ sections s, header⟩ (s.packages.flatMap packageText) es) :
    Document.Reads ⟨base, header⟩ (sectionsText s) es := by
  obtain rfl | rfl := hbase
  all_goals
    refine reads_section (by decide) (by decide) rfl (.blank ?_)
    refine reads_section (by decide) (by decide) rfl (.blank ?_)
    exact reads_section (by decide) (by decide) rfl (h _)

theorem text?_eq {s : Settings} (hrepository : Utf8.IsValid s.repository)
    (hroot : Utf8.IsValid s.cacheRoot) : s.text? = some s.text := if_pos ⟨hrepository, hroot⟩

/-- The document is read as the entries of the settings. -/
theorem parse?_text (s : Settings) : Document.parse? s.text = some s.entries := by
  refine Document.parse?_eq ?_ (by rw [text_eq]; split_ifs <;> simp [sectionsText])
  rw [text_eq, entries]
  split_ifs with hempty
  · rw [List.append_assoc, List.cons_append]
    refine Document.Reads.pair "packages".toList (by decide) (value?_empty _)
      (Document.addValue_root rfl) (.blank (reads_sections (.inr rfl) fun header => ?_))
    rw [hempty]
    exact Document.reads_nil _
  · refine reads_sections (v := .array []) (.inl rfl) fun header => ?_
    have hentries : Entries.withTables "packages".toList ([] ++ s.packages.map packageEntries)
        (sections s) =
          sections s ++ [("packages".toList, .tables (s.packages.map packageEntries))] := by
      rw [List.nil_append, Entries.withTables, if_neg (by simpa using hempty)]
      rfl
    have hread : Document.Reads ⟨sections s, header⟩ (s.packages.flatMap packageText ++ [])
        (sections s ++ [("packages".toList, .tables (s.packages.map packageEntries))]) := by
      have hbase : Entries.find? "packages".toList (sections s) = none := rfl
      refine reads_packages [] hbase fun header => ?_
      rw [hentries]
      exact Document.reads_nil _
    rwa [List.append_nil] at hread

end reading

/-! ### Settings of the entries -/

theorem mapM_map_some {α β : Type} {f : α → β} {g : β → Option α} (h : ∀ x, g (f x) = some x)
    (xs : List α) : (xs.map f).mapM g = some xs := by
  induction xs with
  | nil => rfl
  | cons x xs ih => simp [h, ih]

theorem location?_locationEntries (l : LocationEntry) :
    location? (.table .defined (locationEntries l)) = some l := by
  have hfields : fields? ["name", "path"] (.table .defined (locationEntries l)) =
      some [some (.string l.name.toList), some (.string l.path.toList)] := rfl
  rw [location?, hfields]
  simp [string?]

theorem list?_tables (elements : List Entries) :
    list? (.tables elements) = some (elements.map (.table .defined)) := rfl

theorem package?_packageEntries (p : PackageEntry) :
    package? (.table .defined (packageEntries p)) = some p := by
  have hfields (locations : Value) : fields? ["id", "locations"]
      (.table .defined [("id".toList, .string p.id.toList), ("locations".toList, locations)]) =
        some [some (.string p.id.toList), some locations] := rfl
  rw [package?, packageEntries, hfields]
  split_ifs with hempty
  · simp [string?, list?, ← hempty]
  · have hlocations : ((p.locations.map locationEntries).map (Value.table .defined)).mapM location? =
        some p.locations := by
      rw [List.map_map]
      exact mapM_map_some location?_locationEntries _
    simp only [string?, list?, hlocations, Option.bind_eq_bind, Option.bind_some, Option.pure_def,
      String.ofList_toList]

theorem sectionText?_sectionEntry (title key : String) (value : List Char) :
    sectionText? key (some (sectionEntry title key value).2) = some (some (String.ofList value)) := by
  have hfields : fields? [key] (sectionEntry title key value).2 = some [some (.string value)] := by
    have hfind : Entries.find? key.toList [(key.toList, .string value)] = some (.string value) := by
      rw [Entries.find?, if_pos rfl]
    exact congrArg (fun field => some [field]) hfind
  rw [sectionText?, hfields]
  rfl

theorem ofEntries?_eq (default : Settings) (es : Entries) :
    ofEntries? default es =
      (sectionText? "log_format" (Entries.find? "general".toList es)).bind fun logFormat =>
      (sectionText? "mirror_path" (Entries.find? "repository".toList es)).bind fun repository =>
      (sectionText? "root" (Entries.find? "cache".toList es)).bind fun root =>
      let withPackages (packages : List PackageEntry) : Option Settings := some {
        logFormat := logFormat.getD default.logFormat
        repository := (repository.map Utf8.ofString).getD default.repository
        cacheRoot := (root.map Utf8.ofString).getD default.cacheRoot
        packages := packages }
      match Entries.find? "packages".toList es with
      | none => withPackages default.packages
      | some v => (list? v).bind fun items => (items.mapM package?).bind withPackages := rfl

theorem ofEntries?_entries (default : Settings) {s : Settings}
    (hrepository : Utf8.IsValid s.repository) (hroot : Utf8.IsValid s.cacheRoot) :
    ofEntries? default s.entries = some s := by
  have hgeneral : Entries.find? "general".toList s.entries =
      some (sectionEntry "general" "log_format" s.logFormat.toList).2 := by
    rw [entries]; split_ifs <;> rfl
  have hrepo : Entries.find? "repository".toList s.entries =
      some (sectionEntry "repository" "mirror_path" (Utf8.lossy s.repository)).2 := by
    rw [entries]; split_ifs <;> rfl
  have hcache : Entries.find? "cache".toList s.entries =
      some (sectionEntry "cache" "root" (Utf8.lossy s.cacheRoot)).2 := by
    rw [entries]; split_ifs <;> rfl
  have hpackages : ∃ v items, Entries.find? "packages".toList s.entries = some v ∧
      list? v = some items ∧ items.mapM package? = some s.packages := by
    rw [entries]
    split_ifs with hempty
    · exact ⟨.array [], [], rfl, rfl, by rw [hempty]; rfl⟩
    · refine ⟨_, _, rfl, list?_tables _, ?_⟩
      rw [List.map_map]
      exact mapM_map_some package?_packageEntries _
  obtain ⟨v, items, hfind, hlist, hitems⟩ := hpackages
  rw [ofEntries?_eq, hgeneral, hrepo, hcache, hfind]
  simp only [sectionText?_sectionEntry, hlist, hitems, Option.bind_some, Option.getD_some,
    Option.map_some, Utf8.ofString, String.toList_ofList, Utf8.encode_lossy hrepository,
    Utf8.encode_lossy hroot, String.ofList_toList]

end Depot.Settings
