import Depot.Proofs.Files.Leading

/-!
What operations do at an entry of a directory that their path names: either they fail and change
nothing, or they change what is at the entry and nothing else.
-/

namespace Depot.Files

namespace Disk

variable {d : Disk} {path : Bytes} {place : Place} {n : Name}

theorem makeDir_eq (hne : path ≠ []) (hnul : (0 : UInt8) ∉ path)
    (hlast : (hops path).getLast? = some (.name n)) (mode : Nat) :
    d.makeDir path mode =
      if path.length > pathLimit then .error .nameTooLong
      else walk d.root false linkLimit (d.startPlace path) (hops path) >>= fun found =>
        match found.node with
        | some _ => .error .exists
        | none => .ok (d.put found.place (.dir mode [])) := by
  rw [← travel_start, makeDir, dropStays_eq_hops (by simp [hlast]), if_neg hne, if_neg hnul]
  split_ifs
  · rfl
  · cases d.start path <;> rfl

/-- A directory is only made at the end of names that are not too long. -/
theorem LeadsTo.length_le_of_makeDir {base : Bytes} {names : Place} {mode : Nat} {d' : Disk}
    (h : d.LeadsTo base place) (hn : IsName n) (hpath : Spells base (names ++ [n]) path)
    (hdir : d.root.IsDirAt (place ++ names)) (hok : d.makeDir path mode = .ok d') :
    ∀ m ∈ names ++ [n], m.length ≤ 255 := by
  have hnames := h.names hn hpath hdir
  rw [makeDir_eq hnames.ne_nil hnames.nul hnames.last] at hok
  split_ifs at hok
  obtain ⟨links, hwalks⟩ := h.walks
  have hwalk : walk d.root false linkLimit (d.startPlace path) (hops path) =
      walk d.root false links place (names.map .name ++ [.name n]) := by
    rw [startPlace, hpath.absolute, ← hpath.hops.walk_eq, List.map_append]
    exact hwalks d.root .refl h.dir false _ (.inr (by simp))
  rw [hwalk] at hok
  by_cases hlen : ∀ m ∈ names, m.length ≤ 255
  · rw [walk_names hlen hdir, walk_name hdir] at hok
    by_cases hlong : n.length > 255
    · rw [if_pos hlong] at hok
      cases hok
    · intro m hm
      rcases List.mem_append.mp hm with hm | hm
      · exact hlen m hm
      · obtain rfl := List.mem_singleton.mp hm
        omega
  · rw [walk_names_of_long hlen hdir] at hok
    cases hok

namespace Names

/-- A directory is made if its name is not too long and nothing is there yet. -/
theorem makeDir_cases (h : d.Names path place n) (mode : Nat) :
    d.makeDir path mode = .error .nameTooLong ∨
      d.root.get? (place ++ [n]) = none ∧ n.length ≤ 255 ∧
        d.makeDir path mode = .ok (d.put (place ++ [n]) (.dir mode [])) ∨
      d.root.get? (place ++ [n]) ≠ none ∧ d.makeDir path mode = .error .exists := by
  rw [makeDir_eq h.ne_nil h.nul h.last]
  by_cases hlen : path.length > pathLimit
  · exact .inl (if_pos hlen)
  · rw [if_neg hlen]
    rcases h.walk_eq false nofun with hwalk | ⟨hn, hwalk⟩
    · rw [hwalk]
      exact .inl rfl
    · rw [hwalk]
      cases hx : d.root.get? (place ++ [n]) with
      | none => exact .inr (.inl ⟨rfl, hn, rfl⟩)
      | some x => exact .inr (.inr ⟨by simp, rfl⟩)

theorem stat_cases (h : d.Names path place n)
    (hlink : ∀ target, d.root.get? (place ++ [n]) ≠ some (.link target)) :
    d.stat path = .error .nameTooLong ∨
      n.length ≤ 255 ∧ d.stat path = match d.root.get? (place ++ [n]) with
        | some x => .ok x
        | none => .error .notFound := by
  rw [stat, locate]
  rcases h.find_eq true (fun _ => hlink) with hfind | ⟨hn, hfind⟩
  · rw [hfind]
    exact .inl rfl
  · rw [hfind]
    refine .inr ⟨hn, ?_⟩
    cases d.root.get? (place ++ [n]) <;> rfl

theorem isDirAt_of_isDirectory (h : d.Names path place n)
    (hlink : ∀ target, d.root.get? (place ++ [n]) ≠ some (.link target))
    (hdir : d.isDirectory path = true) : d.root.IsDirAt (place ++ [n]) := by
  rw [isDirectory] at hdir
  rcases h.stat_cases hlink with hstat | ⟨-, hstat⟩
  · simp [hstat] at hdir
  · rw [hstat] at hdir
    cases hx : d.root.get? (place ++ [n]) with
    | none => simp [hx] at hdir
    | some x =>
      simp only [hx] at hdir
      exact .of_isDir hx (by simp [hdir])

/-- A missing directory is made, with no other, and one that is there will do. -/
theorem makeDirsUp_cases {c : Path.Component} {above : List Path.Component}
    (h : d.Names (Path.ofComponents (c :: above).reverse) place n)
    (hlink : ∀ target, d.root.get? (place ++ [n]) ≠ some (.link target)) :
    (∃ e, d.makeDirsUp (c :: above) = .error e) ∨
      d.root.get? (place ++ [n]) = none ∧ n.length ≤ 255 ∧
        d.makeDirsUp (c :: above) = .ok (d.put (place ++ [n]) (.dir 0o755 [])) ∨
      d.root.IsDirAt (place ++ [n]) ∧ d.makeDirsUp (c :: above) = .ok d := by
  have hfailed : ∀ e, e ≠ .notFound →
      d.makeDir (Path.ofComponents (c :: above).reverse) = .error e →
      (∃ e, d.makeDirsUp (c :: above) = .error e) ∨
        d.root.IsDirAt (place ++ [n]) ∧ d.makeDirsUp (c :: above) = .ok d := by
    intro e he hmake
    have hup : d.makeDirsUp (c :: above) =
        if d.isDirectory (Path.ofComponents (c :: above).reverse) then .ok d else .error e := by
      rw [makeDirsUp, hmake]
      cases e <;> first | rfl | exact absurd rfl he
    rw [hup]
    by_cases hdir : d.isDirectory (Path.ofComponents (c :: above).reverse) = true
    · exact .inr ⟨h.isDirAt_of_isDirectory hlink hdir, if_pos hdir⟩
    · exact .inl ⟨e, if_neg hdir⟩
  rcases h.makeDir_cases 0o755 with hlong | ⟨hnone, hn, hmake⟩ | ⟨-, hexists⟩
  · exact (hfailed _ (by simp) hlong).imp_right .inr
  · refine .inr (.inl ⟨hnone, hn, ?_⟩)
    rw [makeDirsUp, hmake]
  · exact (hfailed _ (by simp) hexists).imp_right .inr

theorem makeDirs_eq (hpath : path ≠ []) (hlimit : path.length ≤ pathLimit)
    (hnormal : normal path ≠ []) :
    ∃ c above, Path.ofComponents (c :: above).reverse = normal path ∧
      d.makeDirs path = d.makeDirsUp (c :: above) := by
  have hcs : (Path.components path).reverse ≠ [] := by
    intro hnil
    refine hnormal ?_
    rw [normal, List.reverse_eq_nil_iff.mp hnil]
    rfl
  obtain ⟨c, above, hrev⟩ := List.exists_cons_of_ne_nil hcs
  refine ⟨c, above, by rw [← hrev, List.reverse_reverse, normal], ?_⟩
  rw [makeDirs, if_neg hpath, if_neg (by omega), hrev]

theorem makeDirs_cases (hpath : path ≠ []) (h : d.Names (normal path) place n)
    (hlink : ∀ target, d.root.get? (place ++ [n]) ≠ some (.link target)) :
    (∃ e, d.makeDirs path = .error e) ∨
      d.root.get? (place ++ [n]) = none ∧ n.length ≤ 255 ∧
        d.makeDirs path = .ok (d.put (place ++ [n]) (.dir 0o755 [])) ∨
      d.root.IsDirAt (place ++ [n]) ∧ d.makeDirs path = .ok d := by
  by_cases hlimit : path.length ≤ pathLimit
  · obtain ⟨c, above, hnormal, hmake⟩ := makeDirs_eq (d := d) hpath hlimit h.ne_nil
    rw [hmake]
    rw [← hnormal] at h
    exact h.makeDirsUp_cases hlink
  · refine .inl ⟨.nameTooLong, ?_⟩
    rw [makeDirs, if_neg hpath, if_pos (by omega)]

theorem remove_cases (h : d.Names path place n) :
    (∃ e, d.remove path = .error e) ∨
      d.root.get? (place ++ [n]) ≠ none ∧ n.length ≤ 255 ∧
        d.remove path = .ok (d.alter (place ++ [n]) fun _ => none) := by
  rw [remove]
  rcases h.find_eq false nofun with hfind | ⟨hn, hfind⟩
  · exact .inl ⟨.nameTooLong, by rw [hfind]; rfl⟩
  · rw [hfind]
    cases hx : d.root.get? (place ++ [n]) with
    | none => exact .inl ⟨.notFound, rfl⟩
    | some x => exact .inr ⟨by simp, hn, rfl⟩

/-- A directory moves to where nothing is, or an empty directory. -/
theorem rename_cases {dest : Bytes} {place' : Place} {m : Name} (h : d.Names path place n)
    (h' : d.Names dest place' m) {mode : Nat} {es : Entries}
    (hdir : d.root.get? (place ++ [n]) = some (.dir mode es)) :
    (∃ e, d.rename path dest = .error e) ∨
      (d.root.get? (place' ++ [m]) = none ∨
        ∃ mode', d.root.get? (place' ++ [m]) = some (.dir mode' [])) ∧ m.length ≤ 255 ∧
        d.rename path dest = .ok ((d.alter (place ++ [n]) fun _ => none).put (place' ++ [m])
          (.dir mode es)) := by
  rcases h.find_eq false nofun with hfind | ⟨-, hfind⟩
  · exact .inl ⟨.nameTooLong, by rw [rename, hfind]; rfl⟩
  rcases h'.find_eq false nofun with hfind' | ⟨hm, hfind'⟩
  · exact .inl ⟨.nameTooLong, by
      rw [rename, hfind, hfind', hdir]
      rfl⟩
  by_cases hinside : place ++ [n] <+: place' ++ [m] ∧ place ++ [n] ≠ place' ++ [m]
  · refine .inl ⟨.invalid, ?_⟩
    rw [rename, hfind, hfind', hdir]
    simp only [bind, Except.bind, Found.existing]
    rw [if_pos hinside]
    rfl
  -- What is at the new name decides.
  rw [rename, hfind, hfind', hdir]
  simp only [bind, Except.bind, Found.existing]
  rw [if_neg hinside]
  cases d.root.get? (place' ++ [m]) with
  | none => exact .inr ⟨.inl rfl, hm, rfl⟩
  | some old =>
    cases old with
    | dir mode' old =>
      cases old with
      | nil => exact .inr ⟨.inr ⟨mode', rfl⟩, hm, rfl⟩
      | cons e es => exact .inl ⟨_, rfl⟩
    | _ => exact .inl ⟨_, rfl⟩

end Names

namespace LeadsTo

theorem locate_cases (h : d.LeadsTo path place) :
    d.locate path = .error .nameTooLong ∨ ∃ mode es,
      d.root.get? place = some (.dir mode es) ∧ d.locate path = .ok (place, .dir mode es) := by
  obtain ⟨mode, es, hx⟩ := h.dir
  rcases h.find with hfind | hfind
  · exact .inl (by rw [locate, hfind]; rfl)
  · refine .inr ⟨mode, es, hx, ?_⟩
    rw [locate, hfind, hx]
    rfl

theorem stat_cases (h : d.LeadsTo path place) :
    d.stat path = .error .nameTooLong ∨ ∃ mode es,
      d.root.get? place = some (.dir mode es) ∧ d.stat path = .ok (.dir mode es) := by
  rcases h.locate_cases with hloc | ⟨mode, es, hx, hloc⟩
  · exact .inl (by rw [stat, hloc]; rfl)
  · exact .inr ⟨mode, es, hx, by rw [stat, hloc]; rfl⟩

theorem setMode_cases (h : d.LeadsTo path place) (mode : Nat) :
    (∃ e, d.setMode path mode = .error e) ∨ ∃ old es,
      d.root.get? place = some (.dir old es) ∧
        d.setMode path mode = .ok (d.put place (.dir mode es)) := by
  rcases h.locate_cases with hloc | ⟨old, es, hx, hloc⟩
  · exact .inl ⟨.nameTooLong, by rw [setMode, hloc]; rfl⟩
  · refine .inr ⟨old, es, hx, ?_⟩
    rw [setMode, hloc]
    refine congrArg Except.ok (alter_congr ?_)
    rw [hx]

end LeadsTo

end Disk

end Depot.Files
