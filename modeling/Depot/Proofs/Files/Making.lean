import Depot.Proofs.Path.Parent

/-!
What operations make of a free entry of a directory that their path names. Only a path that is too
long, or a name on it, can keep them from making it.
-/

namespace Depot.Files

/-- What a file is copied as. -/
def Node.copied (mode : Nat) (data : Bytes) : Node :=
  .file (if data = [] then mode else Disk.modeAfterWrite mode) data

namespace Disk

/-- The mode and the data of a regular file that can be read. -/
def fileAt (d : Disk) (path : Bytes) : Except Errno (Nat × Bytes) := do
  let (_, node) ← d.locate path
  let data ← contents node
  match node with
  | .file mode _ => return (mode, data)
  | _ => throw .invalid

theorem fileAt_eq_ok_iff {d : Disk} {path data : Bytes} {mode : Nat} :
    d.fileAt path = .ok (mode, data) ↔
      ∃ here, d.locate path = .ok (here, .file mode data) ∧
        contents (.file mode data) = .ok data := by
  rw [fileAt]
  cases hloc : d.locate path with
  | error e => simp [bind, Except.bind]
  | ok found =>
    obtain ⟨here, node⟩ := found
    cases node with
    | file mode' data' =>
      simp only [bind, Except.bind, contents]
      split_ifs with hmode <;> simp [pure, Except.pure] <;> grind
    | special kind => cases kind <;> simp [bind, Except.bind, contents, throw, throwThe, MonadExceptOf.throw]
    | _ => simp [bind, Except.bind, contents]

/-- A path that operations take: it is not too long, and none of the names that it adds is. -/
structure IsShort (path : Bytes) (names : Place) : Prop where
  path : path.length ≤ pathLimit
  names : ∀ n ∈ names, n.length ≤ 255

instance (path : Bytes) (names : Place) : Decidable (IsShort path names) :=
  decidable_of_iff (path.length ≤ pathLimit ∧ ∀ n ∈ names, n.length ≤ 255)
    ⟨fun h => ⟨h.1, h.2⟩, fun h => ⟨h.path, h.names⟩⟩

variable {d : Disk} {base path : Bytes} {home names : Place} {n : Name}

/-- A path leads to a place, and names that are added to it lead on from there. -/
structure Arrives (d : Disk) (path : Bytes) (place : Place) : Prop where
  ne_nil : path ≠ []
  nul : (0 : UInt8) ∉ path
  walks : ∃ links, ∀ follow more, more ≠ [] →
    walk d.root follow linkLimit (d.startPlace path) (hops path ++ more) =
      walk d.root follow links place more

theorem LeadsTo.arrives (h : d.LeadsTo base home) : d.Arrives base home := by
  obtain ⟨links, hwalks⟩ := h.walks
  exact ⟨h.ne_nil, h.nul, links, fun follow more hmore =>
    hwalks d.root .refl h.dir follow more (.inr hmore)⟩

theorem arrives_of_go {x : Node} (h : d.go true path = .ok ⟨home, some x⟩) : d.Arrives path home := by
  obtain ⟨hne, hnul, hends⟩ := ends_of_go_ok h
  obtain ⟨links, hsteps⟩ := hends.steps
  exact ⟨hne, hnul, links, fun follow more hmore => hsteps.walk_append hmore follow⟩

namespace Arrives

theorem walk_spells (h : d.Arrives base home) (hpath : Spells base (names ++ [n]) path) :
    ∃ links, ∀ follow, walk d.root follow linkLimit (d.startPlace path) (hops path) =
      walk d.root follow links home (names.map .name ++ [.name n]) := by
  obtain ⟨links, hwalks⟩ := h.walks
  refine ⟨links, fun follow => ?_⟩
  rw [startPlace, hpath.absolute, ← hpath.hops.walk_eq, List.map_append]
  exact hwalks follow _ (by simp)

theorem walk_entry (h : d.Arrives base home) (hpath : Spells base (names ++ [n]) path)
    (hdir : d.root.IsDirAt (home ++ names)) (follow : Bool)
    (hlink : follow = true → ∀ target, d.root.get? (home ++ names ++ [n]) ≠ some (.link target)) :
    walk d.root follow linkLimit (d.startPlace path) (hops path) =
      if ∀ m ∈ names ++ [n], m.length ≤ 255 then
        .ok ⟨home ++ names ++ [n], d.root.get? (home ++ names ++ [n])⟩
      else .error .nameTooLong := by
  obtain ⟨links, hwalk⟩ := h.walk_spells hpath
  rw [hwalk]
  by_cases hlen : ∀ m ∈ names, m.length ≤ 255
  · rw [walk_names hlen hdir, walk_name hdir]
    by_cases hn : n.length ≤ 255
    · have hall : ∀ m ∈ names ++ [n], m.length ≤ 255 := by
        simpa [or_imp, forall_and] using ⟨hlen, hn⟩
      rw [if_neg (by omega), if_pos hall]
      cases hx : d.root.get? (home ++ names ++ [n]) with
      | none => simp
      | some x =>
        cases x with
        | link target =>
          have hf : follow = false := by
            by_contra hf
            exact hlink (by simpa using hf) target hx
          simp [hf]
        | _ => exact walk_nil hx
    · rw [if_pos (by omega), if_neg fun hall => hn (hall n (by simp))]
  · rw [walk_names_of_long hlen hdir, if_neg fun hall => hlen fun m hm => hall m (by simp [hm])]

theorem find_entry (h : d.Arrives base home) (hpath : Spells base (names ++ [n]) path)
    (hdir : d.root.IsDirAt (home ++ names)) (follow : Bool)
    (hlink : follow = true → ∀ target, d.root.get? (home ++ names ++ [n]) ≠ some (.link target)) :
    d.find follow path =
      if IsShort path (names ++ [n]) then
        .ok ⟨home ++ names ++ [n], d.root.get? (home ++ names ++ [n])⟩
      else .error .nameTooLong := by
  rw [Disk.find, go_eq hpath.ne_nil hpath.nul, h.walk_entry hpath hdir follow hlink]
  by_cases hlimit : path.length ≤ pathLimit
  · rw [if_neg (by omega)]
    by_cases hlen : ∀ m ∈ names ++ [n], m.length ≤ 255
    · rw [if_pos hlen, if_pos ⟨hlimit, hlen⟩]
    · rw [if_neg hlen, if_neg fun hshort => hlen hshort.names]
  · rw [if_pos ⟨by omega, hpath.nul⟩, if_neg fun hshort => hlimit hshort.path]

/-! ### Free entries -/

variable (ha : d.Arrives base home) (hpath : Spells base (names ++ [n]) path)
  (hdir : d.root.IsDirAt (home ++ names)) (hfree : d.root.get? (home ++ names ++ [n]) = none)
include ha hdir hfree

theorem find_free (hpath : Spells base (names ++ [n]) path) (follow : Bool) :
    d.find follow path =
      if IsShort path (names ++ [n]) then .ok ⟨home ++ names ++ [n], none⟩
      else .error .nameTooLong := by
  rw [ha.find_entry hpath hdir follow (fun _ target => by rw [hfree]; nofun), hfree]

include hpath

theorem makeDir_free (mode : Nat) :
    d.makeDir path mode =
      if IsShort path (names ++ [n]) then .ok (d.put (home ++ names ++ [n]) (.dir mode []))
      else .error .nameTooLong := by
  rw [makeDir_eq hpath.ne_nil hpath.nul hpath.getLast?_hops,
    ha.walk_entry hpath hdir false nofun, hfree]
  by_cases hlimit : path.length ≤ pathLimit
  · rw [if_neg (by omega)]
    by_cases hlen : ∀ m ∈ names ++ [n], m.length ≤ 255
    · rw [if_pos hlen, if_pos ⟨hlimit, hlen⟩]
      rfl
    · rw [if_neg hlen, if_neg fun hshort => hlen hshort.names]
      rfl
  · rw [if_pos (by omega), if_neg fun hshort => hlimit hshort.path]

theorem makeLink_free {target : Bytes} (ht : IsTarget target) :
    d.makeLink target path =
      if IsShort path (names ++ [n]) then .ok (d.put (home ++ names ++ [n]) (.link target))
      else .error .nameTooLong := by
  obtain ⟨hne, -, hlimit⟩ := ht
  rw [makeLink, if_neg hne, if_neg (by omega), ha.find_free hdir hfree hpath]
  by_cases hshort : IsShort path (names ++ [n])
  · rw [if_pos hshort, if_pos hshort]
    rfl
  · rw [if_neg hshort, if_neg hshort]
    rfl

/-- A file that can be read is copied with its data and most of its mode. -/
theorem copy_free (source : Bytes) :
    d.copy source path = d.fileAt source >>= fun file =>
      if IsShort path (names ++ [n]) then
        .ok (d.put (home ++ names ++ [n]) (.copied file.1 file.2))
      else .error .nameTooLong := by
  rw [copy, fileAt]
  cases hloc : d.locate source with
  | error e => rfl
  | ok found =>
    obtain ⟨here, node⟩ := found
    simp only [bind, Except.bind]
    cases hdata : contents node with
    | error e => rfl
    | ok data =>
      cases node with
      | file mode old =>
        have hne : home ++ names ++ [n] ≠ here := by
          rintro rfl
          exact absurd (hfree.symm.trans (get?_of_locate_ok hloc)) (by simp)
        dsimp only
        rw [ha.find_free hdir hfree hpath]
        by_cases hshort : IsShort path (names ++ [n])
        · rw [if_pos hshort]
          simp only [if_neg hne, pure, Except.pure]
          rw [if_pos hshort]
          rfl
        · rw [if_neg hshort]
          simp only [pure, Except.pure]
          rw [if_neg hshort]
      | _ => rfl

/-- A directory that is made with those above it is named in its shortest spelling, but the path must
not be too long as it is. -/
theorem makeDirs_free {dest : Bytes} (hne : dest ≠ []) (hnormal : normal dest = path) :
    d.makeDirs dest =
      if IsShort dest (names ++ [n]) then .ok (d.put (home ++ names ++ [n]) (.dir 0o755 []))
      else .error .nameTooLong := by
  by_cases hlimit : dest.length ≤ pathLimit
  swap
  · rw [makeDirs, if_neg hne, if_pos (by omega), if_neg fun hshort => hlimit hshort.path]
  have hsame : IsShort dest (names ++ [n]) ↔ IsShort path (names ++ [n]) :=
    ⟨fun hshort => ⟨hnormal ▸ Nat.le_trans (length_normal_le dest) hlimit, hshort.names⟩,
      fun hshort => ⟨hlimit, hshort.names⟩⟩
  obtain ⟨c, above, hcs, hmake⟩ := Names.makeDirs_eq (d := d) hne hlimit (hnormal ▸ hpath.ne_nil)
  rw [hmake, makeDirsUp, hcs, hnormal, ha.makeDir_free hpath hdir hfree, if_congr hsame rfl rfl]
  by_cases hshort : IsShort path (names ++ [n])
  · rw [if_pos hshort]
  · rw [if_neg hshort]
    have hnot : d.isDirectory path = false := by
      rw [isDirectory, stat, locate, ha.find_free hdir hfree hpath, if_neg hshort]
      rfl
    simp [hnot]

end Arrives

end Disk

end Depot.Files
