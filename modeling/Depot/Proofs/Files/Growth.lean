import Depot.Proofs.Path.Parent
import Mathlib.Data.List.Induction

/-!
Making a directory with all that are missing above it. Nothing that was there changes; the new
directories all lie on the way.
-/

namespace Depot.Files

namespace Node

/-- Each directory on the way to a place below `home` is there or missing. -/
def IsOpen (root : Node) (home names : Place) : Prop :=
  ∀ part, part <+: names → root.get? (home ++ part) = none ∨ root.IsDirAt (home ++ part)

/-- Empty directories on the way are new, and all else is as it was. -/
def Grown (home names : Place) (a b : Node) : Prop :=
  ∀ other, b.look other = a.look other ∨
    a.get? other = none ∧ b.look other = some (.dir 0o755 []) ∧
      ∃ part, part <+: names ∧ other = home ++ part

namespace Grown

variable {home names : Place} {a b c : Node}

theorem refl : Grown home names a a := fun _ => .inl rfl

theorem trans (h : Grown home names a b) (h' : Grown home names b c) : Grown home names a c := by
  intro other
  rcases h' other with heq | ⟨hnone, hnew, hon⟩
  · rw [heq]
    exact h other
  · rw [← look_eq_none_iff] at hnone
    rcases h other with heq | ⟨-, hdir, -⟩
    · rw [heq] at hnone
      exact .inr ⟨look_eq_none_iff.mp hnone, hnew, hon⟩
    · rw [hnone] at hdir
      cases hdir

theorem mono {names' : Place} (h : Grown home names a b) (hp : names <+: names') :
    Grown home names' a b := fun other =>
  (h other).imp_right fun ⟨hnone, hnew, part, hpart, hother⟩ =>
    ⟨hnone, hnew, part, hpart.trans hp, hother⟩

theorem look_eq (h : Grown home names a b) {other : Place} {x : Node} (hx : a.get? other = some x) :
    b.look other = a.look other :=
  (h other).resolve_right fun ⟨hnone, _⟩ => by simp [hx] at hnone

theorem isDirAt (h : Grown home names a b) {other : Place} (hdir : a.IsDirAt other) :
    b.IsDirAt other := by
  obtain ⟨mode, es, hx⟩ := hdir
  exact (isDirAt_of_look_eq (h.look_eq hx)).mpr ⟨mode, es, hx⟩

theorem sameOff (h : Grown home names a b) : SameOff home a b := fun other hother =>
  ((h other).resolve_right fun ⟨_, _, part, _, heq⟩ =>
    hother (heq ▸ List.prefix_append home part)).symm

theorem isOpen (h : Grown home names a b) {more : Place} (ho : a.IsOpen home more) :
    b.IsOpen home more := by
  intro part hpart
  rcases h (home ++ part) with heq | ⟨-, hnew, -⟩
  · rcases ho part hpart with hnone | hdir
    · exact .inl (look_eq_none_iff.mp (heq.trans (look_eq_none_iff.mpr hnone)))
    · exact .inr ((isDirAt_of_look_eq heq).mpr hdir)
  · exact .inr (isDirAt_iff_look.mpr ⟨_, hnew⟩)

end Grown

end Node

namespace Disk

variable {d : Disk}

theorem grown_put (hs : d.root.IsSound) {home part names : Place} {n : Name}
    (hnone : d.root.get? (home ++ part ++ [n]) = none) (hdir : d.root.IsDirAt (home ++ part))
    (hp : part ++ [n] <+: names) :
    d.root.Grown home names (d.put (home ++ part ++ [n]) (.dir 0o755 [])).root := by
  intro other
  by_cases hother : home ++ part ++ [n] <+: other
  · obtain ⟨rest, rfl⟩ := hother
    have habove : d.root.IsDirAt (home ++ part ++ [n]).dropLast := by simpa using hdir
    have hput := get?_put_self hs (by simp) habove (.dir 0o755 []) rest
    by_cases hrest : rest = []
    · subst hrest
      rw [List.append_nil] at hput ⊢
      refine .inr ⟨hnone, ?_, part ++ [n], hp, List.append_assoc _ _ _⟩
      rw [Node.look, hput]
      rfl
    · obtain ⟨m, more, rfl⟩ := List.exists_cons_of_ne_nil hrest
      left
      rw [Node.look, Node.look, hput, Node.get?_append d.root, hnone]
      rfl
  · exact .inl (look_alter_outside hs (by simp) hother _)

theorem walk_missing {root : Node} {home names : Place} (ho : root.IsOpen home names)
    (hhome : root.IsDirAt home) (hnone : root.get? (home ++ names) = none) {more : List Hop}
    (hmore : more ≠ []) (follow : Bool) (links : Nat) :
    walk root follow links home (names.map .name ++ more) = .error .notFound ∨
      walk root follow links home (names.map .name ++ more) = .error .nameTooLong := by
  induction names generalizing home with
  | nil =>
    obtain ⟨mode, es, hx⟩ := hhome
    simp [hx] at hnone
  | cons n names ih =>
    rw [List.map_cons, List.cons_append, walk_name hhome]
    by_cases hlen : n.length > 255
    · exact .inr (if_pos hlen)
    · rw [if_neg hlen]
      rcases ho [n] (by simp) with hmiss | hdir
      · rw [hmiss]
        exact .inl (if_neg (by simp [hmore]))
      · obtain ⟨mode, es, hx⟩ := hdir
        rw [hx]
        refine ih (fun part hpart => ?_) ⟨mode, es, hx⟩ (by simpa using hnone)
        have hon := ho (n :: part) ((List.prefix_cons_inj n).mpr hpart)
        simpa using hon

variable {base : Bytes} {home names : Place}

/-- The path of names below a directory that is not there. -/
theorem makeDir_missing (hl : d.LeadsTo base home) (hnames : ∀ n ∈ names, IsName n) {n : Name} (hn : IsName n) (ho : d.root.IsOpen home names)
    (hnone : d.root.get? (home ++ names) = none) (mode : Nat) :
    (d.makeDir (normal (Path.below base (names ++ [n]))) mode = .error .notFound ∨
      d.makeDir (normal (Path.below base (names ++ [n]))) mode = .error .nameTooLong) ∧
      d.isDirectory (normal (Path.below base (names ++ [n]))) = false := by
  have hall : ∀ m ∈ names ++ [n], IsName m := by
    intro m hm
    rcases List.mem_append.mp hm with hm | hm
    · exact hnames m hm
    · exact List.mem_singleton.mp hm ▸ hn
  have hpath := (spells_below hl.ne_nil hl.nul (by simp) hall).normal
  generalize normal (Path.below base (names ++ [n])) = path at hpath
  obtain ⟨links, hwalks⟩ := hl.walks
  have hwalk : ∀ follow,
      walk d.root follow linkLimit (d.startPlace path) (hops path) = .error .notFound ∨
        walk d.root follow linkLimit (d.startPlace path) (hops path) = .error .nameTooLong := by
    intro follow
    have hbase := hwalks d.root .refl hl.dir follow ((names ++ [n]).map .name) (.inr (by simp))
    rw [startPlace, hpath.absolute, ← hpath.hops.walk_eq, ← startPlace, hbase, List.map_append]
    exact walk_missing ho hl.dir hnone (by simp) follow links
  constructor
  · rw [makeDir_eq hpath.ne_nil hpath.nul hpath.getLast?_hops]
    split_ifs
    · exact .inr rfl
    · rcases hwalk false with h | h
      · exact .inl (by rw [h]; rfl)
      · exact .inr (by rw [h]; rfl)
  · rw [isDirectory, stat, locate, find]
    split_ifs
    · rfl
    · rw [go_eq hpath.ne_nil hpath.nul]
      rcases hwalk true with h | h
      · rw [h]
        rfl
      · rw [h]
        rfl

/-- What making a directory with all that are missing above it leaves. -/
structure Grows (d d' : Disk) (home names : Place) : Prop where
  cwd : d'.cwd = d.cwd
  sound : d'.root.IsSound
  made : d'.root.IsDirAt (home ++ names)
  grown : d.root.Grown home names d'.root

theorem grows_put (hs : d.root.IsSound) (hl : d.LeadsTo base home) {n : Name}
    (hnames : ∀ m ∈ names ++ [n], IsName m) (hdir : d.root.IsDirAt (home ++ names))
    (hnone : d.root.get? (home ++ names ++ [n]) = none) :
    d.Grows (d.put (home ++ names ++ [n]) (.dir 0o755 [])) home (names ++ [n]) where
  cwd := rfl
  sound := by
    refine isSound_put hs (fun m hm => ?_) (Node.isSound_dir_iff.mpr ⟨.nil, by simp⟩)
    rw [List.append_assoc] at hm
    obtain ⟨mode, es, hx⟩ := hl.dir
    rcases List.mem_append.mp hm with hm | hm
    · exact hs.names hx m hm
    · exact hnames m hm
  made := by
    have habove : d.root.IsDirAt (home ++ names ++ [n]).dropLast := by simpa using hdir
    have hput := get?_put_self hs (by simp) habove (.dir 0o755 []) []
    rw [List.append_nil, List.append_assoc] at hput
    exact ⟨0o755, [], by rw [List.append_assoc, hput]; rfl⟩
  grown := grown_put hs hnone hdir List.prefix_rfl

/-- Directories are made from the first missing one on. -/
theorem makeDirsUp_grows {d' : Disk} (hs : d.root.IsSound) (hl : d.LeadsTo base home)
    (hne : names ≠ []) (hnames : ∀ n ∈ names, IsName n) (ho : d.root.IsOpen home names)
    (h : d.makeDirsUp (Path.components base ++ names.map Path.Component.name).reverse = .ok d') :
    d.Grows d' home names := by
  induction names using List.reverseRecOn generalizing d' with
  | nil => exact absurd rfl hne
  | append_singleton ns n ih =>
    have hns : ∀ m ∈ ns, IsName m := fun m hm => hnames m (List.mem_append_left _ hm)
    have hn : IsName n := hnames n (by simp)
    have ho' : d.root.IsOpen home ns := fun part hp => ho part (hp.trans (List.prefix_append _ _))
    have hcs : (Path.components base ++ (ns ++ [n]).map Path.Component.name).reverse =
        .name n :: (Path.components base ++ ns.map Path.Component.name).reverse := by simp
    have hpath : Path.ofComponents (Path.Component.name n ::
        (Path.components base ++ ns.map Path.Component.name).reverse).reverse =
          normal (Path.below base (ns ++ [n])) := by
      rw [← hcs, List.reverse_reverse, normal, components_below hl.ne_nil (by simp) hnames]
    have hspells := (spells_below hl.ne_nil hl.nul (by simp) hnames).normal
    rw [hcs] at h
    rcases ho' ns List.prefix_rfl with hnone | hdir
    · -- The directory above is made first.
      obtain ⟨hmake, hnot⟩ := makeDir_missing hl hns hn ho' hnone 0o755
      rw [makeDirsUp, hpath] at h
      rcases hmake with hmake | hmake
      · have hns' : ns ≠ [] := by
          rintro rfl
          obtain ⟨mode, es, hx⟩ := hl.dir
          simp [hx] at hnone
        simp only [hmake] at h
        rw [if_neg (by simp [hns'])] at h
        cases hup : d.makeDirsUp (Path.components base ++ ns.map Path.Component.name).reverse with
        | error e =>
          rw [hup] at h
          cases h
        | ok d₁ =>
          have hgrows := ih hns' hns ho' hup
          have hl' : d₁.LeadsTo base home := hl.frame hgrows.cwd hgrows.grown.sameOff
            (hgrows.grown.isDirAt hl.dir)
          have hname := hl'.names hn hspells hgrows.made
          have hnone' : d₁.root.get? (home ++ ns ++ [n]) = none := by
            rcases hgrows.grown (home ++ ns ++ [n]) with heq | ⟨-, -, part, hpart, heq⟩
            · rw [← Node.look_eq_none_iff, heq, Node.look_eq_none_iff, Node.get?_append, hnone]
              rfl
            · have hlen := congrArg List.length heq
              have hle := hpart.length_le
              simp only [List.length_append, List.length_singleton] at hlen
              omega
          rw [hup] at h
          simp only [bind, Except.bind] at h
          rcases hname.makeDir_cases 0o755 with hmake' | ⟨-, -, hmake'⟩ | ⟨hsome, -⟩
          · have hnot' : d₁.isDirectory (normal (Path.below base (ns ++ [n]))) = false := by
              by_contra hdir
              obtain ⟨mode, es, hx⟩ := hname.isDirAt_of_isDirectory (fun _ => by rw [hnone']; simp)
                (by simpa using hdir)
              rw [hnone'] at hx
              cases hx
            simp [hmake', hnot'] at h
          · rw [hmake'] at h
            obtain rfl := Except.ok.inj h
            have hlast := grows_put hgrows.sound hl' hnames hgrows.made hnone'
            exact ⟨hlast.cwd.trans hgrows.cwd, hlast.sound, hlast.made,
              (hgrows.grown.mono (List.prefix_append _ _)).trans hlast.grown⟩
          · exact absurd hnone' hsome
      · simp [hmake, hnot] at h
    · have hname := hl.names hn hspells hdir
      rw [← hpath] at hname
      have hlink : ∀ target, d.root.get? (home ++ ns ++ [n]) ≠ some (.link target) := by
        intro target ht
        rw [List.append_assoc] at ht
        rcases ho _ List.prefix_rfl with hnone | ⟨mode, es, hx⟩
        · simp [ht] at hnone
        · simp [ht] at hx
      rcases hname.makeDirsUp_cases hlink with ⟨e, hmake⟩ | ⟨hnone, -, hmake⟩ | ⟨hdir', hmake⟩
      · rw [hmake] at h
        cases h
      · rw [hmake] at h
        obtain rfl := Except.ok.inj h
        exact grows_put hs hl hnames hdir hnone
      · rw [hmake] at h
        obtain rfl := Except.ok.inj h
        rw [List.append_assoc] at hdir'
        exact ⟨rfl, hs, hdir', .refl⟩

theorem makeDirs_grows {d' : Disk} {path : Bytes} (hs : d.root.IsSound) (hl : d.LeadsTo base home)
    (hne : names ≠ []) (hpath : Extends base names path) (ho : d.root.IsOpen home names)
    (h : d.makeDirs path = .ok d') : d.Grows d' home names := by
  rw [makeDirs, if_neg hpath.spells.ne_nil, hpath.components] at h
  split_ifs at h
  exact makeDirsUp_grows hs hl hne hpath.isName ho h

variable {d' : Disk} {path : Bytes} {n : Name}

/-- A directory that was made, or was there, has a path that can be looked up. -/
theorem LeadsTo.short_of_makes (hl : d.LeadsTo base home) (hpath : Spells base (names ++ [n]) path)
    (hdir : d.root.IsDirAt (home ++ names))
    (hmakes : (∃ mode d', d.makeDir path mode = .ok d') ∨ d.isDirectory path = true) :
    path.length ≤ pathLimit ∧ ∀ m ∈ names ++ [n], m.length ≤ 255 := by
  have hlimit : path.length ≤ pathLimit := by
    by_contra hlong
    rcases hmakes with ⟨mode, d', hmake⟩ | hisdir
    · rw [makeDir, if_pos (by omega)] at hmake
      cases hmake
    · rw [isDirectory, stat, locate, Disk.find, if_pos ⟨Nat.lt_of_not_le hlong, hpath.nul⟩] at hisdir
      cases hisdir
  refine ⟨hlimit, ?_⟩
  by_contra hlong
  obtain ⟨links, hwalks⟩ := hl.walks
  have hwalk : ∀ follow,
      walk d.root follow linkLimit (d.startPlace path) (hops path) = .error .nameTooLong := by
    intro follow
    have hbase := hwalks d.root .refl hl.dir follow ((names ++ [n]).map .name) (.inr (by simp))
    rw [startPlace, hpath.absolute, ← hpath.hops.walk_eq, ← startPlace, hbase, List.map_append]
    by_cases hlen : ∀ m ∈ names, m.length ≤ 255
    · rw [walk_names hlen hdir, List.map_singleton, walk_name hdir, if_pos]
      by_contra hn
      refine hlong fun m hm => ?_
      rcases List.mem_append.mp hm with hm | hm
      · exact hlen m hm
      · obtain rfl := List.mem_singleton.mp hm
        omega
    · exact walk_names_of_long hlen hdir follow links _
  rcases hmakes with ⟨mode, d', hmake⟩ | hisdir
  · rw [makeDir_eq hpath.ne_nil hpath.nul hpath.getLast?_hops, if_neg (by omega), hwalk] at hmake
    cases hmake
  · rw [isDirectory, stat, locate, Disk.find, if_neg (by omega), go_eq hpath.ne_nil hpath.nul,
      hwalk] at hisdir
    cases hisdir

/-- What making a directory comes down to. -/
theorem makeDirsUp_ok_cases {c : Path.Component} {above : List Path.Component}
    (hpath : Path.ofComponents (c :: above).reverse = path) (h : d.makeDirsUp (c :: above) = .ok d') :
    d.makeDir path = .ok d' ∨ d.isDirectory path = true ∧ d' = d ∨
      ∃ d₁, d.makeDir path = .error .notFound ∧ d.makeDirsUp above = .ok d₁ ∧
        (d₁.makeDir path = .ok d' ∨ d₁.isDirectory path = true ∧ d' = d₁) := by
  rw [makeDirsUp, hpath] at h
  cases hmake : d.makeDir path with
  | ok d₁ =>
    rw [hmake] at h
    exact .inl h
  | error e =>
    rw [hmake] at h
    by_cases he : e = .notFound
    · subst he
      dsimp only at h
      split_ifs at h
      cases hup : d.makeDirsUp above with
      | error e =>
        rw [hup] at h
        cases h
      | ok d₁ =>
        rw [hup] at h
        simp only [bind, Except.bind] at h
        refine .inr (.inr ⟨d₁, rfl, rfl, ?_⟩)
        cases hagain : d₁.makeDir path with
        | ok d₂ =>
          rw [hagain] at h
          exact .inl h
        | error e =>
          rw [hagain] at h
          dsimp only at h
          split_ifs at h with hisdir
          exact .inr ⟨hisdir, (Except.ok.inj h).symm⟩
    · have hlast : (if d.isDirectory path then Except.ok d else .error e) = .ok d' := by
        cases e <;> first | exact h | exact absurd rfl he
      split_ifs at hlast with hisdir
      exact .inr (.inl ⟨hisdir, (Except.ok.inj hlast).symm⟩)

theorem short_of_makeDirs (hs : d.root.IsSound) (hl : d.LeadsTo base home)
    (hpath : Extends base (names ++ [n]) path) (ho : d.root.IsOpen home (names ++ [n]))
    (h : d.makeDirs path = .ok d') :
    path.length ≤ pathLimit ∧ ∀ m ∈ names ++ [n], m.length ≤ 255 := by
  have hspells := hpath.spells.normal
  have hnormal : Path.ofComponents (Path.Component.name n ::
      (Path.components base ++ names.map Path.Component.name).reverse).reverse = normal path := by
    rw [normal, hpath.components]
    simp
  have hcs : (Path.components path).reverse =
      .name n :: (Path.components base ++ names.map Path.Component.name).reverse := by
    rw [hpath.components]
    simp
  have ho' : d.root.IsOpen home names := fun part hp => ho part (hp.trans (List.prefix_append _ _))
  have hnames : ∀ m ∈ names, IsName m := fun m hm => hpath.isName m (List.mem_append_left _ hm)
  rw [makeDirs, if_neg hpath.spells.ne_nil, hcs] at h
  split_ifs at h with hlimit
  refine ⟨by omega, ?_⟩
  have hcases := makeDirsUp_ok_cases hnormal h
  rcases ho' names List.prefix_rfl with hnone | hdir
  · have hmissing := makeDir_missing hl hnames (hpath.isName n (by simp)) ho' hnone 0o755
    have hsame : normal (Path.below base (names ++ [n])) = normal path := by
      rw [normal, normal, components_below hl.ne_nil (by simp) hpath.isName, hpath.components]
    rw [hsame] at hmissing
    obtain ⟨hmake, hnot⟩ := hmissing
    rcases hcases with hok | ⟨hisdir, -⟩ | ⟨d₁, -, hup, hmakes⟩
    · rw [hok] at hmake
      rcases hmake with hmake | hmake <;> cases hmake
    · rw [hnot] at hisdir
      cases hisdir
    · have hne : names ≠ [] := by
        rintro rfl
        obtain ⟨mode, es, hx⟩ := hl.dir
        simp [hx] at hnone
      have hgrows := makeDirsUp_grows hs hl hne hnames ho' hup
      have hl₁ : d₁.LeadsTo base home :=
        hl.frame hgrows.cwd hgrows.grown.sameOff (hgrows.grown.isDirAt hl.dir)
      exact (hl₁.short_of_makes hspells hgrows.made
        (hmakes.imp (fun hok => ⟨_, _, hok⟩) And.left)).2
  · rcases hcases with hok | ⟨hisdir, -⟩ | ⟨d₁, hmissing, -, -⟩
    · exact (hl.short_of_makes hspells hdir (.inl ⟨_, _, hok⟩)).2
    · exact (hl.short_of_makes hspells hdir (.inr hisdir)).2
    · have hname := hl.names (hpath.isName n (by simp)) hspells hdir
      rcases hname.makeDir_cases 0o755 with hmake | ⟨-, -, hmake⟩ | ⟨-, hmake⟩ <;>
        rw [hmissing] at hmake <;> cases hmake

theorem LeadsTo.makeDirs_of_isDirAt (hl : d.LeadsTo base home)
    (hpath : Extends base (names ++ [n]) path) (hlimit : path.length ≤ pathLimit)
    (hlen : ∀ m ∈ names ++ [n], m.length ≤ 255) (hdir : d.root.IsDirAt (home ++ (names ++ [n]))) :
    d.makeDirs path = .ok d := by
  have hspells := hpath.spells.normal
  have habove : d.root.IsDirAt (home ++ names) :=
    hdir.of_prefix (by rw [← List.append_assoc]; exact List.prefix_append _ _)
  have hname := hl.names (hpath.isName n (by simp)) hspells habove
  have hisdir : d.isDirectory (normal path) = true := by
    obtain ⟨mode, es, hx⟩ := hdir
    have hleads := hl.down hlen hspells ⟨mode, es, hx⟩
    obtain ⟨links, hwalks⟩ := hleads.walks
    have hwalk := hwalks d.root .refl hleads.dir true [] (.inl rfl)
    rw [List.append_nil, walk_nil hx] at hwalk
    have hshort := Nat.le_trans (length_normal_le path) hlimit
    rw [isDirectory, stat, locate, Disk.find, if_neg (by omega), go_eq hleads.ne_nil hleads.nul, hwalk]
    rfl
  obtain ⟨c, above, hnormal, hup⟩ :=
    Names.makeDirs_eq (d := d) hpath.spells.ne_nil hlimit hspells.ne_nil
  rw [hup, makeDirsUp, hnormal]
  rcases hname.makeDir_cases 0o755 with hmake | ⟨hnone, -, -⟩ | ⟨-, hmake⟩
  · rw [hmake]
    exact if_pos hisdir
  · obtain ⟨mode, es, hx⟩ := hdir
    rw [List.append_assoc, hx] at hnone
    cases hnone
  · rw [hmake]
    exact if_pos hisdir

end Disk

end Depot.Files
