import Depot.Proofs.Archive.Confinement
import Depot.Proofs.Files.Deciding
import Depot.Proofs.Files.Making
import Depot.Proofs.Path.Normal
import Depot.Proofs.Text.Decoding
import Mathlib.Data.List.Basic

/-!
What an archive lists and what is read from it. Every entry that is no directory is listed once, in the
order of the names on its way, by a path that is its own normal form. A file is read by the path that
it is listed under. Only long paths and files that their owner may not read stand between the two.
-/

namespace Depot

open Files

namespace Path

/-- The place that a path spells, part by part. -/
def placeOf (path : String) : Place := splitAtSep slash (Utf8.ofString path)

theorem isPlace_placeOf {path : String} (h : ∀ n ∈ placeOf path, IsName n) :
    IsPlace path (placeOf path) where
  ne_nil := splitAtSep_ne_nil slash _
  names := h
  text := (joinWith_splitAtSep slash _).symm

theorem isPart_of_isName {part : List Char} (h : IsName (Utf8.encode part)) :
    IsPart part ∧ '\x00' ∉ part := by
  obtain ⟨hne, hdot, hup, hslash, hnul⟩ := h
  have hmem : ∀ c ∈ part, ∀ b ∈ String.utf8EncodeChar c, b ∈ Utf8.encode part :=
    fun c hc b hb => List.mem_flatMap.mpr ⟨c, hc, hb⟩
  refine ⟨⟨?_, ?_, ?_, fun hs => hslash (hmem _ hs _ (by decide))⟩,
    fun h0 => hnul (hmem _ h0 _ (by decide))⟩
  · rintro rfl
    exact hne rfl
  · rintro rfl
    exact hdot rfl
  · rintro rfl
    exact hup rfl

theorem ofNames_of_ne_nil {parts : List (List Char)} (h : parts ≠ []) :
    ofNames parts = joinWith ['/'] parts := by
  cases parts with
  | nil => exact absurd rfl h
  | cons part rest => rfl

/-- A path that spells names is its own normal form. -/
theorem normalize_of_names {path : String} (h : ∀ n ∈ placeOf path, IsName n) :
    normalize path = .ok path := by
  have hplace : placeOf path = (splitAtSep '/' path.toList).map Utf8.encode :=
    splitAtSep_encode path.toList
  have hparts : ∀ part ∈ splitAtSep '/' path.toList, IsPart part ∧ '\x00' ∉ part := by
    intro part hpart
    apply isPart_of_isName
    apply h
    rw [hplace]
    exact List.mem_map_of_mem hpart
  have htext : path.toList = ofNames (splitAtSep '/' path.toList) := by
    rw [ofNames_of_ne_nil (splitAtSep_ne_nil '/' _), joinWith_splitAtSep]
  apply normalize_eq_ok_iff.mpr
  constructor
  · rw [htext]
    exact fault?_ofNames (fun part hp => (hparts part hp).1) fun part hp => (hparts part hp).2
  · rw [htext, names_ofNames fun part hp => (hparts part hp).1, ← htext, String.ofList_toList]

/-- What is wrong with a path that names nothing inside an archive. -/
def IsImproper (path : String) : Prop :=
  ['/'] <+: path.toList ∨ '\x00' ∈ path.toList ∨ ['.', '.'] ∈ splitAtSep '/' path.toList

theorem normalize_of_isImproper {path : String} (h : IsImproper path) :
    ∃ reason, normalize path = .error (.pathInvalid (Utf8.ofString path) reason) := by
  unfold normalize normalize?
  cases hfault : fault? path.toList with
  | some fault => exact ⟨fault.reason, rfl⟩
  | none =>
    obtain ⟨habs, hnul, hup⟩ := fault?_eq_none_iff.mp hfault
    rcases h with h | h | h
    · exact absurd h habs
    · exact absurd h hnul
    · exact absurd h hup

end Path

namespace Archive

/-! ### Listed paths -/

/-- The paths of all entries of a tree but its directories. -/
structure IsListing (tree : Node) (paths : List String) : Prop where
  /-- Each path stands once, after those whose names come before its own. -/
  sorted : paths.Pairwise fun p q => Path.placeOf p < Path.placeOf q
  leads : ∀ path ∈ paths, ∃ x, tree.get? (Path.placeOf path) = some x ∧ x.isDir = false
  complete : ∀ place x, tree.get? place = some x → x.isDir = false →
    ∃ path ∈ paths, Path.placeOf path = place
  normal : ∀ path ∈ paths, Path.normalize path = .ok path

/-- A listing gets to every directory: no path on the way is too long. -/
def Spans (a : Archive) (tree : Node) : Prop :=
  ∀ place x, place ≠ [] → tree.get? place = some x → x.isDir = true →
    (Path.below a.root place).length ≤ Disk.pathLimit

section listing

variable {d : Disk} {a : Archive} {home place : Place} {tree : Node}

theorem placeOf_placeText (hne : place ≠ []) (hnames : ∀ n ∈ place, IsName n)
    (hvalid : ∀ n ∈ place, Utf8.IsValid n) : Path.placeOf (placeText place) = place := by
  have htext : (place.map Utf8.lossy).map Utf8.encode = place := by
    rw [List.map_map]
    exact (List.map_congr_left fun n hn => Utf8.encode_lossy (hvalid n hn)).trans (List.map_id place)
  unfold Path.placeOf placeText Utf8.ofString
  rw [String.toList_ofList, Utf8.encode_joinWith, htext]
  exact splitAtSep_joinWith hne fun n hn => (hnames n hn).2.2.2.1

def leaves (tree : Node) : List (Place × Node) := tree.beneath.filter fun entry => !entry.2.isDir

theorem mem_leaves_iff (hs : tree.IsSound) {x : Node} :
    (place, x) ∈ leaves tree ↔ place ≠ [] ∧ tree.get? place = some x ∧ x.isDir = false := by
  unfold leaves
  rw [List.mem_filter, Node.mem_beneath_iff hs, and_assoc]
  simp

theorem isListing_leaves (hs : tree.IsSound) (hdir : tree.isDir = true)
    (hvalid : ∀ e ∈ tree.beneath, ∀ n ∈ e.1, Utf8.IsValid n) :
    IsListing tree ((leaves tree).map fun entry => placeText entry.1) := by
  have hleaf : ∀ e ∈ leaves tree, e.1 ≠ [] ∧ tree.get? e.1 = some e.2 ∧ e.2.isDir = false :=
    fun e he => (mem_leaves_iff hs).mp he
  have hplace : ∀ e ∈ leaves tree, Path.placeOf (placeText e.1) = e.1 := by
    intro e he
    obtain ⟨hne, hget, -⟩ := hleaf e he
    exact placeOf_placeText hne (hs.names hget) (hvalid e (List.mem_filter.mp he).1)
  constructor
  · rw [List.pairwise_map]
    have hsorted : (leaves tree).Pairwise fun x y => x.1 < y.1 := (Node.sorted_beneath hs).filter _
    refine hsorted.imp_of_mem fun hx hy hlt => ?_
    rw [hplace _ hx, hplace _ hy]
    exact hlt
  · intro path hpath
    obtain ⟨e, he, rfl⟩ := List.mem_map.mp hpath
    obtain ⟨-, hget, hleaf⟩ := hleaf e he
    rw [hplace e he]
    exact ⟨e.2, hget, hleaf⟩
  · intro place x hget hx
    have hne : place ≠ [] := by
      rintro rfl
      obtain rfl : tree = x := by simpa using hget
      simp [hdir] at hx
    have he : (place, x) ∈ leaves tree := (mem_leaves_iff hs).mpr ⟨hne, hget, hx⟩
    exact ⟨_, List.mem_map_of_mem he, hplace _ he⟩
  · intro path hpath
    obtain ⟨e, he, rfl⟩ := List.mem_map.mp hpath
    obtain ⟨-, hget, -⟩ := hleaf e he
    apply Path.normalize_of_names
    rw [hplace e he]
    exact hs.names hget

theorem spans_iff (hs : tree.IsSound) :
    Spans a tree ↔ ∀ e ∈ tree.beneath, e.2.isDir = true →
      (Path.below a.root e.1).length ≤ Disk.pathLimit := by
  constructor
  · intro h e he hx
    obtain ⟨hne, hget⟩ := (Node.mem_beneath_iff hs).mp he
    exact h e.1 e.2 hne hget hx
  · intro h place x hne hget hx
    exact h (place, x) ((Node.mem_beneath_iff hs).mpr ⟨hne, hget⟩) hx

theorem any_long_eq_false_iff (hs : tree.IsSound) :
    (tree.beneath.any fun entry =>
      entry.2.isDir && (Path.below a.root entry.1).length > Disk.pathLimit) = false ↔
      Spans a tree := by
  rw [List.any_eq_false, spans_iff hs]
  simp

theorem files_of_spans (hs : tree.IsSound) (hloc : d.locate a.root = .ok (home, tree))
    (hspans : Spans a tree) :
    a.files d = .ok ((leaves tree).map fun entry => placeText entry.1) := by
  have hshort := (any_long_eq_false_iff hs).mpr hspans
  unfold files
  simp only [Disk.stat_of_locate hloc, hshort]
  rfl

theorem files_of_not_spans (hs : tree.IsSound) (hloc : d.locate a.root = .ok (home, tree))
    (hspans : ¬ Spans a tree) :
    a.files d =
      .error (.ofErrno ("listing " ++ Utf8.toStringLossy a.root) .nameTooLong) := by
  have hlong := Bool.of_not_eq_false (mt (any_long_eq_false_iff hs).mp hspans)
  unfold files
  simp only [Disk.stat_of_locate hloc, hlong, if_pos]

end listing

/-! ### Reading -/

section reading

variable {d : Disk} {a : Archive} {home place here : Place} {tree x : Node} {path normal : String}

/-- The path in the file system of a path of an archive. -/
def full (a : Archive) (path : String) : Bytes := Path.join a.root (Utf8.ofString path)

def inspecting (a : Archive) (path : String) (e : Errno) : Failure :=
  .ofErrno ("inspecting " ++ Utf8.toStringLossy (full a path)) e

def reading (a : Archive) (path : String) (e : Errno) : Failure :=
  .ofErrno ("reading " ++ Utf8.toStringLossy (full a path)) e

theorem read_of_isImproper (h : Path.IsImproper path) :
    ∃ reason, a.read d path = .error (.pathInvalid (Utf8.ofString path) reason) := by
  obtain ⟨reason, hreason⟩ := Path.normalize_of_isImproper h
  refine ⟨reason, ?_⟩
  unfold read
  rw [hreason]
  rfl

theorem read_root (h : Path.normalize path = .ok ".") :
    a.read d path = .error (.pathInvalid (Utf8.ofString path) "is the archive root") := by
  unfold read
  rw [h]
  rfl

theorem read_of_stat_error {e : Errno} (h : Path.normalize path = .ok normal) (hroot : normal ≠ ".")
    (hstat : d.stat (full a normal) = .error e) (he : e ≠ .notFound) :
    a.read d path = .error (inspecting a normal e) := by
  unfold read
  unfold full at hstat
  rw [h]
  simp only [bind, Except.bind, if_neg hroot, hstat]
  cases e with
  | notFound => exact absurd rfl he
  | _ => rfl

theorem read_of_stat_ok (h : Path.normalize path = .ok normal) (hroot : normal ≠ ".")
    (hstat : d.stat (full a normal) = .ok x) :
    a.read d path =
      if x.isDir then .error (.pathInvalid (Utf8.ofString path) "is a directory")
      else match Disk.contents x with
        | .ok data => .ok (some data)
        | .error .notFound => .ok none
        | .error e => .error (reading a normal e) := by
  unfold read
  unfold full at hstat
  rw [h]
  simp only [bind, Except.bind, if_neg hroot, hstat, Disk.read]
  split_ifs <;> rfl

theorem stat_full (hs : d.root.IsSound) (hloc : d.locate a.root = .ok (home, tree))
    (hget : tree.get? (Path.placeOf path) = some x) (hlink : ∀ target, x ≠ .link target) :
    d.stat (full a path) =
      if Disk.IsShort (full a path) (Path.placeOf path) then .ok x else .error .nameTooLong := by
  have htop := Disk.get?_of_locate_ok hloc
  have hnames := (hs.get? htop).names hget
  have harrives := Disk.arrives_of_go (Disk.go_of_locate_ok hloc)
  have hfull : full a path = Path.below a.root (Path.placeOf path) :=
    (Path.isPlace_placeOf hnames).join_eq a.root
  have hne : Path.placeOf path ≠ [] := splitAtSep_ne_nil Path.slash _
  rw [hfull]
  have hspells := spells_below harrives.ne_nil harrives.nul hne hnames
  generalize Path.placeOf path = place at *
  obtain ⟨names, n, rfl⟩ := (List.eq_nil_or_concat' place).resolve_left hne
  have hnode : d.root.get? (home ++ names ++ [n]) = some x := by
    rw [List.append_assoc, Node.get?_append, htop]
    exact hget
  have hdir : d.root.IsDirAt (home ++ names) := Node.isDir_of_get?_append (by simp) hnode
  have hfind := harrives.find_entry hspells hdir true fun _ target h =>
    hlink target (Option.some.inj (hnode.symm.trans h))
  unfold Disk.stat Disk.locate
  rw [hfind, hnode]
  split_ifs <;> rfl

theorem normalize_of_get? (hs : d.root.IsSound) (hloc : d.locate a.root = .ok (home, tree))
    (hget : tree.get? (Path.placeOf path) = some x) :
    Path.normalize path = .ok path ∧ path ≠ "." := by
  have hnames := (hs.get? (Disk.get?_of_locate_ok hloc)).names hget
  refine ⟨Path.normalize_of_names hnames, ?_⟩
  rintro rfl
  exact absurd (hnames [Path.dot] (by decide)) (by decide)

theorem read_of_not_isShort (hs : d.root.IsSound) (hloc : d.locate a.root = .ok (home, tree))
    (hget : tree.get? (Path.placeOf path) = some x) (hlink : ∀ target, x ≠ .link target)
    (hshort : ¬ Disk.IsShort (full a path) (Path.placeOf path)) :
    a.read d path = .error (inspecting a path .nameTooLong) := by
  obtain ⟨hnormal, hroot⟩ := normalize_of_get? hs hloc hget
  have hstat := stat_full hs hloc hget hlink
  rw [if_neg hshort] at hstat
  exact read_of_stat_error hnormal hroot hstat (by simp)

theorem read_file {mode : Nat} {data : Bytes} (hs : d.root.IsSound)
    (hloc : d.locate a.root = .ok (home, tree))
    (hget : tree.get? (Path.placeOf path) = some (.file mode data)) :
    a.read d path =
      if ¬ Disk.IsShort (full a path) (Path.placeOf path) then .error (inspecting a path .nameTooLong)
      else if mode &&& Disk.ownerRead = 0 then .error (reading a path .denied)
      else .ok (some data) := by
  by_cases hshort : Disk.IsShort (full a path) (Path.placeOf path)
  · obtain ⟨hnormal, hroot⟩ := normalize_of_get? hs hloc hget
    have hstat := stat_full hs hloc hget (by simp)
    rw [if_pos hshort] at hstat
    have hcontents : Disk.contents (.file mode data) =
        if mode &&& Disk.ownerRead = 0 then .error .denied else .ok data := rfl
    rw [if_neg (not_not.mpr hshort), read_of_stat_ok hnormal hroot hstat, if_neg (by simp [Node.isDir]),
      hcontents]
    by_cases hmode : mode &&& Disk.ownerRead = 0
    · rw [if_pos hmode, if_pos hmode]
    · rw [if_neg hmode, if_neg hmode]
  · rw [if_pos hshort, read_of_not_isShort hs hloc hget (by simp) hshort]

theorem read_directory (h : Path.normalize path = .ok normal) (hroot : normal ≠ ".")
    (hgo : d.go true (full a normal) = .ok ⟨here, some x⟩) (hx : x.isDir = true) :
    a.read d path =
      if (full a normal).length ≤ Disk.pathLimit then
        .error (.pathInvalid (Utf8.ofString path) "is a directory")
      else .error (inspecting a normal .nameTooLong) := by
  by_cases hshort : (full a normal).length ≤ Disk.pathLimit
  · have hstat := Disk.stat_of_locate (Disk.locate_eq_ok_iff.mpr ⟨hshort, hgo⟩)
    rw [if_pos hshort, read_of_stat_ok h hroot hstat, if_pos hx]
  · have hstat : d.stat (full a normal) = .error .nameTooLong := by
      obtain ⟨-, hnul, -⟩ := Disk.ends_of_go_ok hgo
      unfold Disk.stat Disk.locate Disk.find
      rw [if_pos ⟨by omega, hnul⟩]
      rfl
    rw [if_neg hshort, read_of_stat_error h hroot hstat (by simp)]

end reading

/-- What is read from an archive with a tree. -/
structure Serves (d : Disk) (a : Archive) (tree : Node) : Prop where
  /-- The path that spells the place of a file. -/
  file : ∀ path mode data, tree.get? (Path.placeOf path) = some (.file mode data) →
    a.read d path =
      if ¬ Disk.IsShort (full a path) (Path.placeOf path) then .error (inspecting a path .nameTooLong)
      else if mode &&& Disk.ownerRead = 0 then .error (reading a path .denied)
      else .ok (some data)
  /-- Whatever is read is what the normal form leads to. -/
  found : ∀ path data, a.read d path = .ok (some data) →
    ∃ normal here x, Path.normalize path = .ok normal ∧ normal ≠ "." ∧
      d.locate (full a normal) = .ok (here, x) ∧ x.isDir = false ∧ Disk.contents x = .ok data
  improper : ∀ path, Path.IsImproper path →
    ∃ reason, a.read d path = .error (.pathInvalid (Utf8.ofString path) reason)
  root : ∀ path, Path.normalize path = .ok "." →
    a.read d path = .error (.pathInvalid (Utf8.ofString path) "is the archive root")
  directory : ∀ path normal here x, Path.normalize path = .ok normal → normal ≠ "." →
    d.go true (full a normal) = .ok ⟨here, some x⟩ → x.isDir = true →
    a.read d path =
      if (full a normal).length ≤ Disk.pathLimit then
        .error (.pathInvalid (Utf8.ofString path) "is a directory")
      else .error (inspecting a normal .nameTooLong)

theorem serves {d : Disk} {a : Archive} {home : Place} {tree : Node} (hs : d.root.IsSound)
    (hloc : d.locate a.root = .ok (home, tree)) : Serves d a tree where
  file _ _ _ hget := read_file hs hloc hget
  found path data h := by
    obtain ⟨normal, place, here, x, hnormal, hplace, hfound, hdata⟩ := of_read_ok h
    have hroot : normal ≠ "." := by
      rintro rfl
      rw [read_root hnormal] at h
      cases h
    have hx : x.isDir = false := by
      cases x with
      | dir => cases hdata
      | _ => rfl
    refine ⟨normal, here, x, hnormal, hroot, ?_, hx, hdata⟩
    rw [full, hplace.join_eq]
    exact hfound
  improper _ h := read_of_isImproper h
  root _ h := read_root h
  directory _ _ _ _ h hroot hgo hx := read_directory h hroot hgo hx

/-- An archive lists what can be read from it. All entries but the directories are listed, unless there
is a directory whose path is too long. A listed file is read by its path, unless that path is too long
or its owner may not read it. -/
theorem files_agree_read {d : Disk} {a : Archive} {home : Place} {tree : Node}
    (hs : d.root.IsSound) (hloc : d.locate a.root = .ok (home, tree)) (hdir : tree.isDir = true)
    (hvalid : ∀ e ∈ tree.beneath, ∀ n ∈ e.1, Utf8.IsValid n) :
    (Spans a tree → ∃ paths, a.files d = .ok paths ∧ IsListing tree paths) ∧
    (¬ Spans a tree → a.files d =
      .error (.ofErrno ("listing " ++ Utf8.toStringLossy a.root) .nameTooLong)) ∧
    Serves d a tree := by
  have htree : tree.IsSound := hs.get? (Disk.get?_of_locate_ok hloc)
  exact ⟨fun h => ⟨_, files_of_spans htree hloc h, isListing_leaves htree hdir hvalid⟩,
    files_of_not_spans htree hloc, serves hs hloc⟩

def shelfTree : Node :=
  .dir 0o755 [
    ([0x20, 0x2E], .file 0o600 []),
    ([0x61], .dir 0o755 [([0x62], .file 0o644 [1])]),
    ([0x63], .link [0x61, 0x2F, 0x62])]

def shelf : Disk where
  root := .dir 0o755 [([0x73], shelfTree)]

theorem files_agree_read_shelf :
    Archive.files ⟨⟨""⟩, [0x2F, 0x73]⟩ shelf = .ok [" .", "a/b", "c"] ∧
      IsListing shelfTree [" .", "a/b", "c"] ∧ Serves shelf ⟨⟨""⟩, [0x2F, 0x73]⟩ shelfTree ∧
      Archive.read ⟨⟨""⟩, [0x2F, 0x73]⟩ shelf "c" = .ok (some [1]) := by
  obtain ⟨hlists, -, hserves⟩ := @files_agree_read shelf ⟨⟨""⟩, [0x2F, 0x73]⟩ [[0x73]] shelfTree
    (by decide) rfl rfl (by decide)
  obtain ⟨paths, hpaths, hlisting⟩ := hlists ((spans_iff (by decide)).mpr (by decide))
  have hfiles : Archive.files ⟨⟨""⟩, [0x2F, 0x73]⟩ shelf = .ok [" .", "a/b", "c"] := by decide
  obtain rfl := Except.ok.inj (hfiles.symm.trans hpaths)
  exact ⟨hfiles, hlisting, hserves, rfl⟩

def deepTree (x : Node) : Node := .buried x (List.replicate 16 longestName)

def deepShelf (x : Node) : Disk where
  root := .dir 0o755 [([0x73], deepTree x)]

def deepPath : String := placeText (List.replicate 16 longestName)

theorem placeOf_deepPath : Path.placeOf deepPath = List.replicate 16 longestName := by
  have hname : IsName longestName ∧ Utf8.IsValid longestName := by decide +kernel
  exact placeOf_placeText (by simp) (by simpa using hname.1) (by simpa using hname.2)

theorem get?_deepTree (x : Node) : (deepTree x).get? (Path.placeOf deepPath) = some x := by
  rw [placeOf_deepPath]
  exact Node.get?_buried x _

theorem not_isShort_deepPath :
    ¬ Disk.IsShort (full ⟨⟨""⟩, [0x2F, 0x73]⟩ deepPath) (Path.placeOf deepPath) := by
  intro hshort
  have hnames : ∀ n ∈ Path.placeOf deepPath, IsName n := by
    have hname : IsName longestName := by decide +kernel
    rw [placeOf_deepPath]
    simpa using hname
  have hlimit := hshort.path
  rw [full, (Path.isPlace_placeOf hnames).join_eq, placeOf_deepPath] at hlimit
  have hlong : ¬ (Path.below [0x2F, 0x73] (List.replicate 16 longestName)).length ≤
      Disk.pathLimit := by decide +kernel
  exact hlong hlimit

theorem isSound_deepShelf {x : Node} (hx : x.IsSound) : (deepShelf x).root.IsSound := by
  have hname : IsName longestName := by decide +kernel
  have htree : (deepTree x).IsSound := Node.isSound_buried (by simpa using hname) hx
  have hnames : ∀ n ∈ ([[0x73]] : Place), IsName n := by decide
  exact Node.isSound_dir_iff.mpr ⟨.of_fst (by simp) hnames, by simpa using htree⟩

def lockedTree : Node := .dir 0o755 [([0x66], .file 0o044 [1])]

/-- A file is listed, but not read if the path that it is listed under is too long, nor if its owner may
not read it. Where a directory has such a path nothing is listed, and the directory is not recognized
by it. -/
theorem listed_not_read :
    ((deepShelf (.file 0o644 [1])).root.IsSound ∧
      (deepShelf (.file 0o644 [1])).locate [0x2F, 0x73] = .ok ([[0x73]], deepTree (.file 0o644 [1])) ∧
      (∀ e ∈ (deepTree (.file 0o644 [1])).beneath, ∀ n ∈ e.1, Utf8.IsValid n) ∧
      Archive.files ⟨⟨""⟩, [0x2F, 0x73]⟩ (deepShelf (.file 0o644 [1])) = .ok [deepPath] ∧
      (deepTree (.file 0o644 [1])).get? (Path.placeOf deepPath) = some (.file 0o644 [1]) ∧
      Archive.read ⟨⟨""⟩, [0x2F, 0x73]⟩ (deepShelf (.file 0o644 [1])) deepPath =
        .error (inspecting ⟨⟨""⟩, [0x2F, 0x73]⟩ deepPath .nameTooLong)) ∧
    ((deepShelf (.dir 0o755 [])).root.IsSound ∧
      (deepShelf (.dir 0o755 [])).locate [0x2F, 0x73] = .ok ([[0x73]], deepTree (.dir 0o755 [])) ∧
      (∀ e ∈ (deepTree (.dir 0o755 [])).beneath, ∀ n ∈ e.1, Utf8.IsValid n) ∧
      (∃ f, Archive.files ⟨⟨""⟩, [0x2F, 0x73]⟩ (deepShelf (.dir 0o755 [])) = .error f) ∧
      (deepTree (.dir 0o755 [])).get? (Path.placeOf deepPath) = some (.dir 0o755 []) ∧
      Archive.read ⟨⟨""⟩, [0x2F, 0x73]⟩ (deepShelf (.dir 0o755 [])) deepPath =
        .error (inspecting ⟨⟨""⟩, [0x2F, 0x73]⟩ deepPath .nameTooLong)) ∧
    Archive.files ⟨⟨""⟩, [0x2F, 0x73]⟩ ⟨.dir 0o755 [([0x73], lockedTree)], []⟩ = .ok ["f"] ∧
      Archive.read ⟨⟨""⟩, [0x2F, 0x73]⟩ ⟨.dir 0o755 [([0x73], lockedTree)], []⟩ "f" =
        .error (reading ⟨⟨""⟩, [0x2F, 0x73]⟩ "f" .denied) := by
  have hs := isSound_deepShelf (Node.isSound_file 0o644 [1])
  have hs' := isSound_deepShelf (x := .dir 0o755 []) (by decide)
  have hloc : ∀ x, (deepShelf x).locate [0x2F, 0x73] = .ok ([[0x73]], deepTree x) := fun _ => rfl
  have hvalid : ∀ e ∈ (deepTree (.file 0o644 [1])).beneath, ∀ n ∈ e.1, Utf8.IsValid n := by
    decide +kernel
  have hvalid' : ∀ e ∈ (deepTree (.dir 0o755 [])).beneath, ∀ n ∈ e.1, Utf8.IsValid n := by
    decide +kernel
  have htree : ∀ {x}, (deepShelf x).root.IsSound → (deepTree x).IsSound := fun hs =>
    hs.get? (Disk.get?_of_locate_ok (hloc _))
  have hleaves : leaves (deepTree (.file 0o644 [1])) =
      [(List.replicate 16 longestName, .file 0o644 [1])] := by decide +kernel
  have hspans : Spans ⟨⟨""⟩, [0x2F, 0x73]⟩ (deepTree (.file 0o644 [1])) :=
    (spans_iff (htree hs)).mpr (by decide +kernel)
  have hspans' : ¬ Spans ⟨⟨""⟩, [0x2F, 0x73]⟩ (deepTree (.dir 0o755 [])) := fun h =>
    absurd ((spans_iff (htree hs')).mp h) (by decide +kernel)
  have hfiles := files_of_spans (htree hs) (hloc _) hspans
  rw [hleaves] at hfiles
  refine ⟨⟨hs, hloc _, hvalid, hfiles, get?_deepTree _, ?_⟩,
    ⟨hs', hloc _, hvalid', ⟨_, files_of_not_spans (htree hs') (hloc _) hspans'⟩, get?_deepTree _, ?_⟩,
    by decide, rfl⟩
  · exact read_of_not_isShort hs (hloc _) (get?_deepTree _) (by simp) not_isShort_deepPath
  · exact read_of_not_isShort hs' (hloc _) (get?_deepTree _) (by simp) not_isShort_deepPath

end Archive

end Depot
